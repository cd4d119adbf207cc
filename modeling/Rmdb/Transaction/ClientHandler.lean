import Rmdb.Lib.Trace
import Rmdb.Transaction.LockQueue

namespace Rmdb

inductive TransactionState
  | default
  | growing
  | shrinking
  | committed
  | aborted
deriving DecidableEq, Repr

structure Transaction where
  state : TransactionState
  txnMode : Bool
deriving DecidableEq, Repr

/-- The log records that mark a transaction's life; the records of its writes carry
the same id and play no part here. -/
inductive TxnLogRecord
  | begin (txn : TxnId)
  | commit (txn : TxnId)
  | abort (txn : TxnId)
deriving DecidableEq, Repr

/-- `abort` undoes the writes after it has appended its record, and may throw on the way. -/
inductive Undo
  | completes
  | throws
deriving DecidableEq, Repr

inductive Statement
  /-- the parser rejects the text -/
  | parseError
  /-- DML, DDL, LOAD or a utility statement that ends normally, or with an exception that
  is neither `TransactionAbortException` nor a failed `abort` -/
  | runs
  /-- a statement that throws `TransactionAbortException` -/
  | txnAbort (undo : Undo)
  | begin
  | commit
  /-- ABORT or ROLLBACK -/
  | rollback (undo : Undo)
  | checkpoint
deriving DecidableEq, Repr

inductive Request
  /-- a statement, and whether the reply could be written to the socket -/
  | statement (stmt : Statement) (written : Bool)
  /-- the text "exit", an empty read or a read error -/
  | exit
  /-- the text "crash" -/
  | crash
deriving DecidableEq, Repr

/-- The server process: `TransactionManager`, the log, and for each connected client the
variable `txn_id` of its handler; `none` for a handler that has returned. -/
structure Server where
  nextTxnId : TxnId
  txnMap : TxnId → Option Transaction
  log : List TxnLogRecord
  txnId : Nat → Option TxnId
  running : Bool

def invalidTxnId : TxnId := -1

namespace Server

variable (s : Server) (client : Nat) (txn : TxnId)

/-- A server to which every client is connected and that has not begun a transaction. -/
def init : Server := ⟨0, fun _ => none, [], fun _ => some invalidTxnId, true⟩

def setState (state : TransactionState) : Server :=
  { s with txnMap := Function.update s.txnMap txn ((s.txnMap txn).map fun t => { t with state := state }) }

def setTxnMode (mode : Bool) : Server :=
  { s with txnMap := Function.update s.txnMap txn ((s.txnMap txn).map fun t => { t with txnMode := mode }) }

def begin : TxnId × Server :=
  (s.nextTxnId, { s with
    nextTxnId := s.nextTxnId + 1
    txnMap := Function.update s.txnMap s.nextTxnId (some ⟨.default, false⟩)
    log := s.log ++ [.begin s.nextTxnId] })

def commit : Server := { (s.setState txn .committed) with log := s.log ++ [.commit txn] }

/-- Appends the ABORT record first; the state changes only when the undo gets through. -/
def abort : Undo → Server
  | .completes => { (s.setState txn .aborted) with log := s.log ++ [.abort txn] }
  | .throws => { s with log := s.log ++ [.abort txn] }

def releaseTxn : Server := { s with txnMap := Function.update s.txnMap txn none }

def setTransaction (txn : TxnId) : TxnId × Server :=
  match s.txnMap txn with
  | none => s.begin
  | some t =>
      if t.state = .committed ∨ t.state = .aborted then (s.releaseTxn txn).begin
      else (txn, s)

/-- The `try` block of `client_handler`, with its handlers. -/
def execute : Statement → Server
  | .parseError => s
  | .runs => s
  -- `abort` is called in the handler: what it throws there ends the process
  | .txnAbort .completes => s.abort txn .completes
  | .txnAbort .throws => { (s.abort txn .throws) with running := false }
  | .begin => s.setTxnMode txn true
  | .commit => s.commit txn
  | .rollback undo => s.abort txn undo
  | .checkpoint => s.commit txn

/-- The test at the end of the loop: a single statement is committed. -/
def autoCommit : Server :=
  match s.txnMap txn with
  | none => s
  | some t => if t.txnMode = false ∧ t.state ≠ .committed then s.commit txn else s

/-- One round of the loop of `client_handler`. The assertion of `get_transaction` stops the
process if the client's transaction is not in the map. -/
def clientHandler (txnId : TxnId) : Request → Server
  | .exit => { s with txnId := Function.update s.txnId client none }
  | .crash => { s with running := false }
  | .statement stmt written =>
      if txnId ≠ invalidTxnId ∧ s.txnMap txnId = none then { s with running := false }
      else
        let (txn, s) := s.setTransaction txnId
        let s := { s with txnId := Function.update s.txnId client (some txn) }
        let s := s.execute txn stmt
        if s.running = false then s
        else if written = false then { s with txnId := Function.update s.txnId client none }
        else s.autoCommit txn

def handle (s : Server) (request : Nat × Request) : Option Server :=
  if s.running then (s.txnId request.1).map fun txnId => s.clientHandler request.1 txnId request.2
  else none

/-- No transaction on which `abort` has run is committed afterwards, in the log or in its
state, and the log holds no ABORT and COMMIT of one transaction. -/
def LifeCycle (s : Server) : Prop :=
  (∀ txn, .abort txn ∈ s.log → .commit txn ∉ s.log) ∧
  ∀ txn t, s.txnMap txn = some t → t.state = .committed → .abort txn ∉ s.log

def InExplicit (s : Server) (client : Nat) : Prop :=
  ∃ txn t, s.txnId client = some txn ∧ s.txnMap txn = some t ∧ t.state ≠ .committed ∧ t.state ≠ .aborted ∧
    t.txnMode = true

/-- A request that aborts, and whose reply is written, runs inside a transaction opened with
BEGIN, and an ABORT or ROLLBACK gets through its undo. -/
def AbortsExplicitly (s : Server) : Nat × Request → Prop
  | (client, .statement (.txnAbort .completes) true) => s.InExplicit client
  | (client, .statement (.rollback undo) written) =>
      undo = .completes ∧ (written = true → s.InExplicit client)
  | _ => True

structure LifeInv (s : Server) : Prop where
  fresh : ∀ txn, .commit txn ∈ s.log ∨ .abort txn ∈ s.log → txn < s.nextTxnId
  mapped : ∀ txn t, s.txnMap txn = some t → txn < s.nextTxnId
  live : ∀ txn t, s.txnMap txn = some t →
    (t.state ≠ .committed → .commit txn ∉ s.log) ∧ (t.state ≠ .aborted → .abort txn ∉ s.log)
  never : ∀ txn, .abort txn ∈ s.log → .commit txn ∉ s.log

variable {s : Server} {client : Nat} {txn : TxnId}

theorem lifeInv_init : LifeInv init :=
  ⟨by simp [init], by simp [init], by simp [init], by simp [init]⟩

theorem LifeInv.lifeCycle (h : LifeInv s) : LifeCycle s := by
  refine ⟨h.never, fun txn t ht hc => (h.live txn t ht).2 ?_⟩
  rw [hc]
  decide

theorem LifeInv.begin (h : LifeInv s) : LifeInv s.begin.2 := by
  refine ⟨?_, ?_, ?_, ?_⟩
  · intro t ht
    exact (h.fresh t (by simpa [Server.begin] using ht)).trans (Int.lt_succ _)
  · intro t x hx
    by_cases ht : t = s.nextTxnId
    · rw [ht]
      exact Int.lt_succ _
    · exact (h.mapped t x (by simpa [Server.begin, ht] using hx)).trans (Int.lt_succ _)
  · intro t x hx
    by_cases ht : t = s.nextTxnId
    · have hc : .commit t ∉ s.log := fun hc => (h.fresh t (.inl hc)).ne ht
      have ha : .abort t ∉ s.log := fun ha => (h.fresh t (.inr ha)).ne ht
      simp [Server.begin, hc, ha]
    · have hx' : s.txnMap t = some x := by simpa [Server.begin, ht] using hx
      simpa [Server.begin] using h.live t x hx'
  · intro t
    simpa [Server.begin] using h.never t

theorem LifeInv.releaseTxn (h : LifeInv s) : LifeInv (s.releaseTxn txn) := by
  have hold : ∀ t x, (s.releaseTxn txn).txnMap t = some x → s.txnMap t = some x := by
    intro t x hx
    by_cases ht : t = txn
    · simp [Server.releaseTxn, ht] at hx
    · simpa [Server.releaseTxn, ht] using hx
  exact ⟨h.fresh, fun t x hx => h.mapped t x (hold t x hx), fun t x hx => h.live t x (hold t x hx), h.never⟩

theorem LifeInv.mapped_setState (h : LifeInv s) {st : TransactionState} {t x : TxnId} {y : Transaction} :
    (s.setState t st).txnMap x = some y → x < s.nextTxnId := by
  intro hx
  by_cases ht : x = t
  · obtain ⟨z, hz, -⟩ := Option.map_eq_some_iff.1 (by simpa [Server.setState, ht] using hx)
    exact h.mapped x z (by rw [ht]; exact hz)
  · exact h.mapped x y (by simpa [Server.setState, ht] using hx)

/-- The request runs in a transaction that is neither committed nor aborted, in explicit
mode only if the client was in such a transaction before. -/
theorem setTransaction_spec (h : LifeInv s) {txnId : TxnId} (hc : s.txnId client = some txnId) :
    LifeInv (s.setTransaction txnId).2 ∧
    ∃ t, (s.setTransaction txnId).2.txnMap (s.setTransaction txnId).1 = some t ∧
      t.state ≠ .committed ∧ t.state ≠ .aborted ∧ (s.InExplicit client → t.txnMode = true) := by
  rw [setTransaction]
  cases hm : s.txnMap txnId with
  | none =>
      refine ⟨h.begin, ⟨.default, false⟩, by simp [Server.begin], by decide, by decide, ?_⟩
      rintro ⟨u, x, hu, hx, -⟩
      rw [hc] at hu
      cases hu
      rw [hm] at hx
      cases hx
  | some t =>
      simp only
      split
      · rename_i hst
        refine ⟨h.releaseTxn.begin, ⟨.default, false⟩, by simp [Server.begin], by decide, by decide, ?_⟩
        rintro ⟨u, x, hu, hx, hnc, hna, -⟩
        rw [hc] at hu
        cases hu
        rw [hm] at hx
        cases hx
        exact absurd hst (by simp [hnc, hna])
      · rename_i hst
        refine ⟨h, t, hm, fun hc' => hst (.inl hc'), fun ha => hst (.inr ha), ?_⟩
        rintro ⟨u, x, hu, hx, -, -, hmode⟩
        rw [hc] at hu
        cases hu
        rw [hm] at hx
        cases hx
        exact hmode

theorem LifeInv.commit (h : LifeInv s) {t : Transaction} (ht : s.txnMap txn = some t)
    (hna : t.state ≠ .aborted) : LifeInv (s.commit txn) := by
  have hab := (h.live txn t ht).2 hna
  refine ⟨?_, fun u x hx => h.mapped_setState hx, ?_, ?_⟩
  · intro u hu
    simp only [Server.commit, List.mem_append, List.mem_singleton, TxnLogRecord.commit.injEq,
      reduceCtorEq, or_false] at hu
    rcases hu with (hu | rfl) | hu
    · exact h.fresh u (.inl hu)
    · exact h.mapped _ t ht
    · exact h.fresh u (.inr hu)
  · intro u x hx
    by_cases hu : u = txn
    · subst hu
      have hxs : x.state = .committed := by
        simp only [Server.commit, setState, ht, Option.map_some, Function.update_self,
          Option.some.injEq] at hx
        rw [← hx]
      refine ⟨fun hc => absurd hxs hc, fun _ => ?_⟩
      simpa [Server.commit] using hab
    · have hx' : s.txnMap u = some x := by simpa [Server.commit, setState, hu] using hx
      simpa [Server.commit, hu] using h.live u x hx'
  · intro u hu
    have hu' : .abort u ∈ s.log := by simpa [Server.commit] using hu
    have hne : u ≠ txn := fun hc => hab (hc ▸ hu')
    simpa [Server.commit, hne] using h.never u hu'

/-- `abort`, when it gets through, on a transaction that has not been committed. -/
theorem LifeInv.abort (h : LifeInv s) {t : Transaction} (ht : s.txnMap txn = some t)
    (hnc : t.state ≠ .committed) : LifeInv (s.abort txn .completes) := by
  have hco := (h.live txn t ht).1 hnc
  refine ⟨?_, fun u x hx => h.mapped_setState hx, ?_, ?_⟩
  · intro u hu
    simp only [Server.abort, List.mem_append, List.mem_singleton, TxnLogRecord.abort.injEq,
      reduceCtorEq, or_false] at hu
    rcases hu with hu | hu | rfl
    · exact h.fresh u (.inl hu)
    · exact h.fresh u (.inr hu)
    · exact h.mapped _ t ht
  · intro u x hx
    by_cases hu : u = txn
    · subst hu
      have hxs : x.state = .aborted := by
        simp only [Server.abort, setState, ht, Option.map_some, Function.update_self, Option.some.injEq] at hx
        rw [← hx]
      refine ⟨fun _ => ?_, fun hc => absurd hxs hc⟩
      simpa [Server.abort] using hco
    · have hx' : s.txnMap u = some x := by simpa [Server.abort, setState, hu] using hx
      simpa [Server.abort, hu] using h.live u x hx'
  · intro u hu
    by_cases hut : u = txn
    · subst hut
      simpa [Server.abort] using hco
    · have hu' : .abort u ∈ s.log := by simpa [Server.abort, hut] using hu
      simpa [Server.abort] using h.never u hu'

theorem LifeInv.handler (h : LifeInv s) (txnId : Nat → Option TxnId) (running : Bool) :
    LifeInv { s with txnId := txnId, running := running } :=
  ⟨h.fresh, h.mapped, h.live, h.never⟩

/-- The tail of a round in which the transaction is neither committed nor aborted, or is
not aborted in implicit mode. -/
theorem LifeInv.autoCommit (h : LifeInv s) {t : Transaction} (ht : s.txnMap txn = some t)
    (hna : t.state = .aborted → t.txnMode = true) : LifeInv (s.autoCommit txn) := by
  rw [Server.autoCommit, ht]
  simp only
  split
  · rename_i hc
    refine h.commit ht fun hab => ?_
    rw [hna hab] at hc
    cases hc.1
  · exact h

theorem LifeInv.setTxnMode (h : LifeInv s) (mode : Bool) : LifeInv (s.setTxnMode txn mode) := by
  have hold : ∀ u x, (s.setTxnMode txn mode).txnMap u = some x → ∃ y, s.txnMap u = some y ∧
      y.state = x.state := by
    intro u x hx
    by_cases hu : u = txn
    · obtain ⟨y, hy, rfl⟩ := Option.map_eq_some_iff.1 (by simpa [Server.setTxnMode, hu] using hx)
      exact ⟨y, by rw [hu]; exact hy, rfl⟩
    · exact ⟨x, by simpa [Server.setTxnMode, hu] using hx, rfl⟩
  refine ⟨h.fresh, ?_, ?_, h.never⟩
  · intro u x hx
    obtain ⟨y, hy, -⟩ := hold u x hx
    exact h.mapped u y hy
  · intro u x hx
    obtain ⟨y, hy, hst⟩ := hold u x hx
    rw [← hst]
    exact h.live u y hy

/-- An abort that dies in its undo leaves an ABORT record and no COMMIT. -/
theorem LifeInv.abort_throws (h : LifeInv s) {t : Transaction} (ht : s.txnMap txn = some t)
    (hnc : t.state ≠ .committed) : LifeCycle (s.abort txn .throws) := by
  have hco := (h.live txn t ht).1 hnc
  refine ⟨?_, ?_⟩
  · intro u hu
    by_cases hut : u = txn
    · subst hut
      simpa [Server.abort] using hco
    · have hu' : .abort u ∈ s.log := by simpa [Server.abort, hut] using hu
      simpa [Server.abort] using h.never u hu'
  · intro u x hx hxc
    have hne : u ≠ txn := by
      rintro rfl
      have hxt : t = x := Option.some.inj (ht.symm.trans hx)
      exact hnc (hxt ▸ hxc)
    have hab := h.lifeCycle.2 u x hx hxc
    simpa [Server.abort, hne] using hab

/-- What a statement leaves behind: the process has died in an undo, or the transaction is
still in the map and has been aborted only by the statement itself. -/
theorem LifeInv.execute (h : LifeInv s) {t : Transaction} (ht : s.txnMap txn = some t)
    (hnc : t.state ≠ .committed) (hna : t.state ≠ .aborted) {stmt : Statement}
    (hroll : stmt ≠ .rollback .throws) :
    ((s.execute txn stmt).running = false ∧ LifeCycle (s.execute txn stmt)) ∨
    (LifeInv (s.execute txn stmt) ∧ ∃ t', (s.execute txn stmt).txnMap txn = some t' ∧
      (t'.state = .aborted → (stmt = .txnAbort .completes ∨ stmt = .rollback .completes) ∧
        t'.txnMode = t.txnMode)) := by
  cases stmt with
  | parseError | runs => exact .inr ⟨h, t, ht, fun hc => absurd hc hna⟩
  | begin =>
      refine .inr ⟨h.setTxnMode true, { t with txnMode := true },
        by simp [Server.execute, Server.setTxnMode, ht], ?_⟩
      exact fun hc => absurd hc hna
  | commit | checkpoint =>
      refine .inr ⟨h.commit ht hna, { t with state := .committed },
        by simp [Server.execute, Server.commit, Server.setState, ht], ?_⟩
      intro hc
      cases hc
  | txnAbort undo =>
      cases undo with
      | completes =>
          exact .inr ⟨h.abort ht hnc, { t with state := .aborted },
            by simp [Server.execute, Server.abort, Server.setState, ht], fun _ => ⟨.inl rfl, rfl⟩⟩
      | throws => exact .inl ⟨rfl, h.abort_throws ht hnc⟩
  | rollback undo =>
      cases undo with
      | completes =>
          exact .inr ⟨h.abort ht hnc, { t with state := .aborted },
            by simp [Server.execute, Server.abort, Server.setState, ht], fun _ => ⟨.inr rfl, rfl⟩⟩
      | throws => exact absurd rfl hroll

structure ServerInv (s : Server) : Prop where
  lifeCycle : LifeCycle s
  alive : s.running = true → LifeInv s

theorem LifeInv.server (h : LifeInv s) : ServerInv s := ⟨h.lifeCycle, fun _ => h⟩

/-- One round of the loop keeps the invariant when its abort, if any, is explicit. -/
theorem LifeInv.clientHandler (h : LifeInv s) {txnId : TxnId} {request : Request}
    (hc : s.txnId client = some txnId) (hok : s.AbortsExplicitly (client, request)) :
    ServerInv (s.clientHandler client txnId request) := by
  cases request with
  | exit => exact (h.handler _ s.running).server
  | crash => exact (h.handler s.txnId false).server
  | statement stmt written =>
      have hroll : stmt ≠ .rollback .throws := by
        rintro rfl
        cases hok.1
      rw [Server.clientHandler]
      split
      · exact (h.handler s.txnId false).server
      · obtain ⟨hs, t, ht, hnc, hna, hmode⟩ := setTransaction_spec h hc
        generalize s.setTransaction txnId = start at hs ht
        obtain ⟨txn, s1⟩ := start
        simp only at hs ht ⊢
        have hs1 := hs.handler (Function.update s1.txnId client (some txn)) s1.running
        rcases hs1.execute ht hnc hna hroll with ⟨hdead, hcyc⟩ | ⟨hs2, t', ht', hab⟩
        · rw [if_pos hdead]
          exact ⟨hcyc, fun hc => by rw [hdead] at hc; cases hc⟩
        · split
          · exact hs2.server
          · split
            · exact (hs2.handler _ _).server
            · rename_i hw
              refine (hs2.autoCommit ht' fun hc => ?_).server
              obtain ⟨hstmt, hm⟩ := hab hc
              rw [hm]
              have hw' : written = true := by simpa using hw
              subst hw'
              rcases hstmt with rfl | rfl
              · exact hmode hok
              · exact hmode (hok.2 rfl)

theorem serverInv_handle {s' : Server} {request : Nat × Request} (h : ServerInv s)
    (hok : s.AbortsExplicitly request) (hs : s.handle request = some s') : ServerInv s' := by
  obtain ⟨hrun, hs⟩ := Option.ite_none_right_eq_some.1 hs
  obtain ⟨txnId, hc, rfl⟩ := Option.map_eq_some_iff.1 hs
  exact (h.alive hrun).clientHandler hc hok

/-- In every run in which requests abort only inside a transaction opened with BEGIN, and
every ABORT or ROLLBACK gets through, no aborted transaction is ever committed. -/
theorem aborted_never_committed (requests : List (Nat × Request))
    (hok : Trace.Guarded handle AbortsExplicitly init requests) :
    Trace.Always handle LifeCycle init requests := by
  refine Trace.Always.mono (fun s h => ServerInv.lifeCycle h) ?_
  refine Trace.always_of_guarded ?_ lifeInv_init.server hok
  intro s a s' h ha hs
  exact serverInv_handle h ha hs

theorem aborted_never_committed_rollback :
    Trace.Guarded handle AbortsExplicitly init
      [(0, .statement .begin true), (0, .statement .runs true), (0, .statement (.rollback .completes) true)] ∧
    Trace.Always handle LifeCycle init
      [(0, .statement .begin true), (0, .statement .runs true),
        (0, .statement (.rollback .completes) true)] := by
  have hok : Trace.Guarded handle AbortsExplicitly init
      [(0, .statement .begin true), (0, .statement .runs true),
        (0, .statement (.rollback .completes) true)] := by
    refine ⟨trivial, ?_⟩
    rintro s1 ⟨⟩
    refine ⟨trivial, ?_⟩
    rintro s2 ⟨⟩
    refine ⟨⟨rfl, fun _ => ?_⟩, fun _ _ => trivial⟩
    exact ⟨0, ⟨.default, true⟩, rfl, rfl, by decide, by decide, rfl⟩
  exact ⟨hok, aborted_never_committed _ hok⟩

/-- A single statement that is refused with `TransactionAbortException`: the transaction is
aborted and then committed by the test at the end of the loop. -/
theorem implicit_abort_is_committed :
    ∃ s, Trace.run handle init [(0, .statement (.txnAbort .completes) true)] = some s ∧
      s.log = [.begin 0, .abort 0, .commit 0] ∧ s.txnMap 0 = some ⟨.committed, false⟩ ∧ ¬ LifeCycle s := by
  refine ⟨_, rfl, by decide, by decide, fun h => ?_⟩
  exact h.1 0 (by decide) (by decide)

end Server

end Rmdb
