import Rmdb.Lib.Retracted
import Rmdb.Recovery.Rebuild

namespace Rmdb

open RecoveryManager Slot

/-- A step of a history, or an INSERT that fails because an index has one of its keys: the record
is logged and the row put into its slot, and then taken out again without a record. -/
inductive Try
  | done (e : Event)
  | refused (t : TxnId) (loc : Loc) (row : Bytes)

structure TryDb where
  db : Db
  refused : List Lsn

namespace TryDb

def start (base : Store) : TryDb := ⟨Db.start base, []⟩

variable (first : Lsn) (x : TryDb)

/-- `InsertExecutor` while it looks for the keys in the indexes. -/
def attempt (t : TxnId) (loc : Loc) (row : Bytes) : Db := x.db.apply first (.write t ⟨loc, .put row⟩)

def apply : Try → TryDb
  | .done e => { x with db := x.db.apply first e }
  | .refused t loc row =>
      ⟨{ x.attempt first t loc row with store := deleteRecord (x.attempt first t loc row).store loc },
        (first + x.db.log.length) :: x.refused⟩

def applyAll (ts : List Try) : TryDb := ts.foldl (apply first) x

def Clean (t : TxnId) : Prop := ∀ r ∈ x.db.log, r.logTid = t → r.lsn ∉ x.refused

variable {κ : Type} (cat : Catalog κ)

/-- A transaction goes on after a statement that has failed, and is not aborted. -/
def Legal : Try → Prop
  | .done e => x.db.Legal cat e ∧ ∀ t, e = .abort t → x.Clean t
  | .refused t loc row => (∃ y, x.db.txns t = some y ∧ y.phase = .running) ∧
      (x.db.owner loc.table = none ∨ x.db.owner loc.table = some t) ∧ x.db.store loc = none ∧
      loc.table ∈ cat.tables ∧
      ¬ UniqueKeys cat loc.table (insertRecord x.db.store loc row)

def LegalRun : TryDb → List Try → Prop
  | _, [] => True
  | x, t :: ts => x.Legal cat t ∧ LegalRun (x.apply first t) ts

end TryDb

/-- A crash: how many records of the log are durable, and for each page on disk, in which step of
the history it was written. It can be written while a statement that fails has its row in the
slot. -/
structure TryCrash where
  durable : Nat
  version : String × Int → Nat
  midway : String × Int → Bool

namespace TryCrash

variable (c : TryCrash) (first : Lsn) (base : Store) (ts : List Try)

def log : List LogRecord := ((TryDb.start base).applyAll first ts).db.log.take c.durable

def refused : List Lsn := ((TryDb.start base).applyAll first ts).refused

def memory (n : Nat) (midway : Bool) : Store :=
  match midway, ts[n]? with
  | true, some (.refused t loc row) =>
      (((TryDb.start base).applyAll first (ts.take n)).attempt first t loc row).store
  | _, _ => ((TryDb.start base).applyAll first (ts.take n)).db.store

def disk : Store := fun loc => memory first base ts (c.version loc.page) (c.midway loc.page) loc

def WriteAhead : Prop :=
  ∀ page, ∀ r ∈ ((TryDb.start base).applyAll first
    (ts.take (c.version page + if c.midway page then 1 else 0))).db.log,
    ∀ w, r.write? = some w → w.loc.page = page → r ∈ c.log first base ts

end TryCrash

section Outcome

variable (refused : List Lsn) (log : List LogRecord) (base : Store)

def succeeded : List LogRecord := log.filter fun r => r.lsn ∉ refused

/-- The INSERT that was refused, if the log of the slot ends in one. -/
def leftover (loc : Loc) : Option (TxnId × Bytes) :=
  log.foldl (fun last r =>
    match r.body with
    | .write ⟨loc', .put row⟩ =>
        if loc' = loc then (if r.lsn ∈ refused then some (r.logTid, row) else none) else last
    | .write w => if w.loc = loc then none else last
    | _ => last) none

def written : Store := effects (winner log) base (succeeded refused log)

/-- No refused row of the history is live: where its bytes are in its slot, a statement that
succeeded has put them there. -/
def RefusedStayOut (history : List LogRecord) (st : Store) : Prop :=
  ∀ r ∈ history, r.lsn ∈ refused → ∀ loc row, r.write? = some ⟨loc, .put row⟩ → st loc = some row →
    written refused log base loc = some row

/-- The rows that committed transactions have written, and where the log of a slot ends in a
refused INSERT of one, the row of that INSERT. -/
def withLeftovers : Store := fun loc =>
  ((leftover refused log loc).filter fun e => winner log e.1).map Prod.snd <|> written refused log base loc

/-- For every refused INSERT of a committed transaction that is the last write of its slot, an
index of the table keeps an earlier row with the same key. -/
def RefusedRepeat {κ : Type} (cat : Catalog κ) : Prop :=
  ∀ loc t row, leftover refused log loc = some (t, row) → winner log t = true →
    ¬ Survives (cat.slots loc.table) loc.table (withLeftovers refused log base)
      (cat.indexes loc.table).reverse loc.rid

end Outcome

section Logs

variable {refused : List Lsn} {log full : List LogRecord} {r r' : LogRecord} {loc : Loc} {t : TxnId}
  {row : Bytes} {l : Lsn}

theorem leftover_append (l l' : List LogRecord) (refused : List Lsn) (loc : Loc) :
    leftover refused (l ++ l') loc = l'.foldl (fun last r =>
      match r.body with
      | .write ⟨loc', .put row⟩ =>
          if loc' = loc then (if r.lsn ∈ refused then some (r.logTid, row) else none) else last
      | .write w => if w.loc = loc then none else last
      | _ => last) (leftover refused l loc) := List.foldl_append

theorem leftover_congr {refused' : List Lsn} (h : ∀ r ∈ log, r.lsn ∈ refused' ↔ r.lsn ∈ refused) :
    leftover refused' log loc = leftover refused log loc := by
  induction log using List.reverseRecOn with
  | nil => rfl
  | append_singleton log r ih =>
      rw [leftover_append, leftover_append, ih fun r hr => h r (List.mem_append_left _ hr)]
      simp only [List.foldl_cons, List.foldl_nil, h r (by simp)]

theorem leftover_keep (h : r.lsn ∉ refused) :
    leftover refused (log ++ [r]) loc = if r.write?.any (fun w => w.loc = loc) then none
    else leftover refused log loc := by
  rw [leftover_append]
  simp only [List.foldl_cons, List.foldl_nil, if_neg h]
  obtain ⟨lsn, tid, prev, body⟩ := r
  cases body with
  | write w =>
      obtain ⟨loc', o⟩ := w
      cases o <;> simp [LogRecord.write?]
  | _ => simp [LogRecord.write?]

theorem body_of_write {w : Write} (hw : r.write? = some w) : r.body = .write w := by
  obtain ⟨lsn, tid, prev, body⟩ := r
  cases body with
  | write v => exact congrArg LogBody.write (Option.some.inj hw)
  | _ => cases hw

theorem leftover_refuse (h : r.lsn ∈ refused) (hw : r.write? = some ⟨loc, .put row⟩) (loc' : Loc) :
    leftover refused (log ++ [r]) loc' = if loc = loc' then some (r.logTid, row)
    else leftover refused log loc' := by
  rw [leftover_append]
  simp only [List.foldl_cons, List.foldl_nil, body_of_write hw, if_pos h]

theorem leftover_mem (h : leftover refused log loc = some (t, row)) :
    ∃ r ∈ log, r.lsn ∈ refused ∧ r.logTid = t ∧ r.write? = some ⟨loc, .put row⟩ := by
  induction log using List.reverseRecOn with
  | nil => cases h
  | append_singleton log r ih =>
      have hold : leftover refused log loc = some (t, row) →
          ∃ r' ∈ log ++ [r], r'.lsn ∈ refused ∧ r'.logTid = t ∧ r'.write? = some ⟨loc, .put row⟩ := by
        intro hlog
        obtain ⟨r', hr', hrest⟩ := ih hlog
        exact ⟨r', List.mem_append_left _ hr', hrest⟩
      rw [leftover_append] at h
      simp only [List.foldl_cons, List.foldl_nil] at h
      split at h
      · rename_i loc' row' hbody
        split at h
        · rename_i hloc
          split at h
          · rename_i hlsn
            cases h
            exact ⟨r, by simp, hlsn, rfl, by rw [LogRecord.write?, hbody, hloc]⟩
          · cases h
        · exact hold h
      · split at h
        · cases h
        · exact hold h
      · exact hold h

theorem succeeded_append (refused : List Lsn) (l l' : List LogRecord) :
    succeeded refused (l ++ l') = succeeded refused l ++ succeeded refused l' := List.filter_append ..

structure LogsMatch (refused : List Lsn) (log full : List LogRecord) : Prop where
  slots : ∀ loc, Retracts (slotLog loc log) (slotLog loc (succeeded refused log)) (slotLog loc full)
    (leftover refused log loc)
  commits : ∀ t, committed full t = committed log t
  aborts : ∀ t, aborted full t = aborted log t

theorem LogsMatch.winner (h : LogsMatch refused log full) : winner full = winner log := by
  funext t
  rw [Rmdb.winner, Rmdb.winner, h.commits, h.aborts]

theorem LogsMatch.congr {refused' : List Lsn} (h : LogsMatch refused log full)
    (hr : ∀ r ∈ log, r.lsn ∈ refused' ↔ r.lsn ∈ refused) : LogsMatch refused' log full := by
  have hsucc : succeeded refused' log = succeeded refused log := by
    refine List.filter_congr fun r hrm => ?_
    simp [hr r hrm]
  refine ⟨fun loc => ?_, h.commits, h.aborts⟩
  rw [hsucc, leftover_congr hr]
  exact h.slots loc

theorem LogsMatch.keep (h : LogsMatch refused log full) (hlsn : r.lsn ∉ refused) (htid : r'.logTid = r.logTid)
    (hbody : r'.body = r.body)
    (hput : ∀ w, r.write? = some w → (leftover refused log w.loc).isSome = true → ∃ v, w.op = .put v) :
    LogsMatch refused (log ++ [r]) (full ++ [r']) := by
  have hwrite : r'.write? = r.write? := by rw [LogRecord.write?, LogRecord.write?, hbody]
  have hsucc : succeeded refused (log ++ [r]) = succeeded refused log ++ [r] := by
    rw [succeeded_append]
    simp [succeeded, hlsn]
  refine ⟨fun loc => ?_, fun t => ?_, fun t => ?_⟩
  · rw [hsucc, leftover_keep hlsn]
    cases hw : r.write? with
    | none =>
        rw [slotLog_snoc_none hw, slotLog_snoc_none hw, slotLog_snoc_none (hwrite.trans hw)]
        simpa [hw] using h.slots loc
    | some w =>
        rw [slotLog_snoc_write hw, slotLog_snoc_write hw, slotLog_snoc_write (hwrite.trans hw), htid]
        by_cases hloc : w.loc = loc
        · subst hloc
          simpa [hw] using Retracts.keep (r.logTid, w.op) (h.slots w.loc) (hput w hw)
        · simpa [hw, hloc] using h.slots loc
  · rw [committed_append, committed_append, h.commits, htid, hbody]
  · rw [aborted_append, aborted_append, h.aborts, htid, hbody]

theorem LogsMatch.refuse (h : LogsMatch refused log full) {r₁ r₂ : LogRecord}
    (hlsn : ∀ x ∈ log, x.lsn ≠ r.lsn) (hr : r.body = .write ⟨loc, .put row⟩)
    (hr₁ : r₁.body = .write ⟨loc, .put row⟩) (hr₂ : r₂.body = .write ⟨loc, .erase row⟩)
    (ht₁ : r₁.logTid = r.logTid) (ht₂ : r₂.logTid = r.logTid) :
    LogsMatch (r.lsn :: refused) (log ++ [r]) (full ++ [r₁] ++ [r₂]) := by
  have hold : LogsMatch (r.lsn :: refused) log full := h.congr fun x hx => by simp [hlsn x hx]
  have hw : r.write? = some ⟨loc, .put row⟩ := by rw [LogRecord.write?, hr]
  have hw₁ : r₁.write? = some ⟨loc, .put row⟩ := by rw [LogRecord.write?, hr₁]
  have hw₂ : r₂.write? = some ⟨loc, .erase row⟩ := by rw [LogRecord.write?, hr₂]
  have hsucc : succeeded (r.lsn :: refused) (log ++ [r]) = succeeded (r.lsn :: refused) log := by
    rw [succeeded_append]
    simp [succeeded]
  refine ⟨fun loc' => ?_, fun t => ?_, fun t => ?_⟩
  · rw [hsucc, leftover_refuse List.mem_cons_self hw, slotLog_snoc_write hw, slotLog_snoc_write hw₂,
      slotLog_snoc_write hw₁, ht₁, ht₂]
    by_cases hloc : loc = loc'
    · subst hloc
      simpa using Retracts.retract r.logTid row (hold.slots loc)
    · simpa [hloc] using hold.slots loc'
  · rw [committed_append, committed_append, committed_append, h.commits, hr, hr₁, hr₂]
    simp [LogBody.isCommit]
  · rw [aborted_append, aborted_append, aborted_append, h.aborts, hr, hr₁, hr₂]
    simp [LogBody.isAbort]

theorem LogsMatch.noOverwrite (h : LogsMatch refused log full) (hno : NoOverwrite log) :
    NoOverwrite full := by
  refine ⟨fun loc e he ht => ?_, fun loc => ?_⟩
  · rw [h.aborts] at ht
    rw [h.commits]
    obtain ⟨d, hd, hde⟩ := ((h.slots loc).fst e.1).1 ⟨e, he, rfl⟩
    rw [← hde] at ht ⊢
    exact hno.once loc d hd ht
  · simp only [h.aborts, h.commits]
    exact (h.slots loc).pairwise (R := fun t u => aborted log t = true → committed log u = false)
      (fun e he => hno.once loc e he)
      (hno.order loc)

end Logs

end Rmdb
