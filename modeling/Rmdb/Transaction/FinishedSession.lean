import Rmdb.Transaction.ClientHandler
import Rmdb.Transaction.LockManager

namespace Rmdb

def TransactionState.Ended (state : TransactionState) : Prop := state = .committed ∨ state = .aborted

instance (state : TransactionState) : Decidable state.Ended := inferInstanceAs (Decidable (_ ∨ _))

inductive SessionStage
  | reading
  | executing
  /-- in the undo of `abort`, which the handler of `TransactionAbortException` has called or a ROLLBACK -/
  | undoing (caught : Bool)
  /-- in the loop over `lock_set_` of `commit` or `abort`, called by the test at the end of the
  loop or before -/
  | releasing (state : TransactionState) (auto : Bool)
  /-- before the reply is written -/
  | replying
  | returned
deriving DecidableEq

inductive StatementEnd
  /-- also with an exception other than `TransactionAbortException`, or in the parser -/
  | ends
  | begin
  | commit
  | checkpoint
  | rollback
  /-- `TransactionAbortException`, from elsewhere than the lock manager -/
  | txnAbort

inductive SessionStep
  /-- a statement has been read -/
  | request
  /-- "exit", an empty read or a read error -/
  | leave
  | crash
  | lockShared (fd : Int)
  | lockExclusive (fd : Int)
  | wake
  | finish (e : StatementEnd)
  | undone
  /-- the undo throws, `TransactionAbortException` or another exception -/
  | undoThrows (txnAbort : Bool)
  | unlock (id : LockDataId)
  | released
  | reply (written : Bool)

/-- The server with its lock table. `begun` and `lastState` remember the transactions that each
client's thread has begun, and the state of a transaction whose object has been deleted. -/
structure LockServer where
  server : Server
  locks : LockState
  stage : Nat → SessionStage
  begun : Nat → List TxnId
  lastState : TxnId → TransactionState

namespace LockServer

variable (s : LockServer) (client : Nat) (txn : TxnId)

def init : LockServer := ⟨.init, .init, fun _ => .reading, fun _ => [], fun _ => .default⟩

def setStage (stage : SessionStage) : LockServer := { s with stage := Function.update s.stage client stage }

def appendLog (r : TxnLogRecord) : LockServer :=
  { s with server := { s.server with log := s.server.log ++ [r] } }

def stop : LockServer := { s with server := { s.server with running := false } }

def commit (auto : Bool) : LockServer :=
  (s.appendLog (.commit txn)).setStage client (.releasing .committed auto)

def abort (caught : Bool) : LockServer := (s.appendLog (.abort txn)).setStage client (.undoing caught)

def settle (state : TransactionState) (auto : Bool) : LockServer :=
  { s with
    server := s.server.setState txn state
    lastState := Function.update s.lastState txn state
    stage := Function.update s.stage client (if auto then .reading else .replying) }

/-- The assertion of `get_transaction` and `SetTransaction`. -/
def receive : LockServer :=
  if txn ≠ invalidTxnId ∧ s.server.txnMap txn = none then s.stop
  else
    let next := s.server.setTransaction txn
    { s with
      server := { next.2 with txnId := Function.update next.2.txnId client (some next.1) }
      stage := Function.update s.stage client .executing
      begun := if next.1 = txn then s.begun else Function.update s.begun client (next.1 :: s.begun client)
      lastState := if next.1 = txn then s.lastState else Function.update s.lastState next.1 .default }

/-- `TransactionAbortException`: thrown out of the handler it ends the process. -/
def throwAbort : SessionStage → LockServer
  | .undoing true => s.stop
  | _ => s.abort client txn true

def lockCall (fd : Int) (mode : LockMode) : Option LockServer :=
  if s.locks.waiting txn = none then
    let call := s.locks.lockOnTable txn fd mode
    match call.1 with
    | .returned | .waits => some { s with locks := call.2 }
    | .dies => some ({ s with locks := call.2 }.throwAbort client txn (s.stage client))
    | .nullRequest => some s.stop
  else none

def finish : StatementEnd → LockServer
  | .ends => s.setStage client .replying
  | .begin => { s with server := s.server.setTxnMode txn true }.setStage client .replying
  | .commit | .checkpoint => s.commit client txn false
  | .rollback => s.abort client txn false
  | .txnAbort => s.abort client txn true

def autoCommit : LockServer :=
  match s.server.txnMap txn with
  | none => s.setStage client .reading
  | some t =>
      if t.txnMode = false ∧ t.state ≠ .committed then s.commit client txn true
        else s.setStage client .reading

def handler : SessionStage → SessionStep → Option LockServer
  | .reading, .request => some (s.receive client txn)
  | .reading, .leave => some (s.setStage client .returned)
  | .reading, .crash => some s.stop
  | .executing, .lockShared fd | .undoing _, .lockShared fd => s.lockCall client txn fd .shared
  | .executing, .lockExclusive fd | .undoing _, .lockExclusive fd => s.lockCall client txn fd .exlucsive
  | .executing, .wake | .undoing _, .wake => (s.locks.wakeUp txn).map fun res => { s with locks := res.2 }
  | .executing, .finish e => if s.locks.waiting txn = none then some (s.finish client txn e) else none
  | .undoing _, .undone =>
      if s.locks.waiting txn = none then some (s.setStage client (.releasing .aborted false)) else none
  | .undoing caught, .undoThrows true =>
      if s.locks.waiting txn = none then some (s.throwAbort client txn (.undoing caught)) else none
  | .undoing caught, .undoThrows false =>
      if s.locks.waiting txn = none
        then some (if caught then s.stop else s.setStage client .replying) else none
  | .releasing _ _, .unlock id =>
      if id ∈ s.locks.lockSet txn then some { s with locks := s.locks.unlock txn id } else none
  | .releasing state auto, .released =>
      if s.locks.lockSet txn = ∅ then some (s.settle client txn state auto) else none
  | .replying, .reply true => some (s.autoCommit client txn)
  | .replying, .reply false => some (s.setStage client .returned)
  | _, _ => none

def step (s : LockServer) (a : Nat × SessionStep) : Option LockServer :=
  if s.server.running then (s.server.txnId a.1).bind fun txn => s.handler a.1 txn (s.stage a.1) a.2 else none

/-- The transactions of a handler that has returned are COMMITTED or ABORTED, and no lock queue
has a request of theirs. -/
def NothingLeft (s : LockServer) : Prop :=
  ∀ client, s.stage client = .returned → ∀ txn ∈ s.begun client, (s.lastState txn).Ended ∧
    ∀ id, ¬ (s.locks.getLockRequestQueue id).HasRequest txn ∧ ¬ (s.locks.getLockRequestQueue id).Upgrading txn

def OutsideTransaction (s : LockServer) (client : Nat) : Prop :=
  ∀ txn ∈ s.server.txnId client, ∀ t ∈ s.server.txnMap txn, t.state.Ended

instance (s : LockServer) (client : Nat) : Decidable (s.OutsideTransaction client) :=
  inferInstanceAs (Decidable (∀ txn ∈ s.server.txnId client, ∀ t ∈ s.server.txnMap txn, t.state.Ended))

def LeavesOutside (s : LockServer) : Nat × SessionStep → Prop
  | (client, .leave) | (client, .reply false) => s.OutsideTransaction client
  | _ => True

def Unlocked (s : LockServer) (txn : TxnId) : Prop := s.locks.lockSet txn = ∅ ∧ s.locks.waiting txn = none

def StageInv (s : LockServer) (txn : TxnId) : SessionStage → Prop
  | .reading | .replying | .returned =>
      s.locks.waiting txn = none ∧ ((s.lastState txn).Ended → s.locks.lockSet txn = ∅)
  | .executing | .undoing _ => ¬ (s.lastState txn).Ended
  | .releasing state _ => s.locks.waiting txn = none ∧ state.Ended

structure SessionInv (s : LockServer) : Prop where
  locks : LockState.LockInv s.locks
  nextTxnId : 0 ≤ s.server.nextTxnId
  fresh : ∀ {client txn}, txn ∈ s.begun client → 0 ≤ txn ∧ txn < s.server.nextTxnId
  apart : ∀ {client client' txn}, txn ∈ s.begun client → txn ∈ s.begun client' → client = client'
  idle : ∀ txn, (∀ client, txn ∉ s.begun client) → s.Unlocked txn
  known : ∀ {txn t}, s.server.txnMap txn = some t → t.state = s.lastState txn ∧ ∃ client, txn ∈ s.begun client
  current : ∀ {client txn}, s.server.txnId client = some txn →
    (txn ∈ s.begun client ∧ ∃ t, s.server.txnMap txn = some t) ∨
      (txn = invalidTxnId ∧ (s.stage client = .reading ∨ s.stage client = .returned))
  past : ∀ {client txn}, txn ∈ s.begun client →
    s.server.txnId client = some txn ∨ ((s.lastState txn).Ended ∧ s.Unlocked txn)
  stage : ∀ {client txn}, s.server.txnId client = some txn → s.StageInv txn (s.stage client)

variable {s s' : LockServer} {client other : Nat} {txn u : TxnId}

@[simp]
theorem setStage_stage (stage : SessionStage) : (s.setStage client stage).stage client = stage :=
  Function.update_self ..

theorem setStage_of_ne (stage : SessionStage) (ho : other ≠ client) :
    (s.setStage client stage).stage other = s.stage other :=
  Function.update_of_ne ho ..

theorem stageInv_congr (hlocks : s'.locks = s.locks) (hlast : s'.lastState = s.lastState)
    (stage : SessionStage) :
    s'.StageInv txn stage ↔ s.StageInv txn stage := by
  cases stage <;> simp only [StageInv, hlocks, hlast]

theorem sessionInv_init : SessionInv init where
  locks := LockState.lockInv_init
  nextTxnId := le_rfl
  fresh h := by cases h
  apart h := by cases h
  idle _ _ := ⟨rfl, rfl⟩
  known h := by cases h
  current h := .inr ⟨(Option.some.inj h).symm, .inl rfl⟩
  past h := by cases h
  stage _ := ⟨rfl, fun _ => rfl⟩

theorem SessionInv.no_request (h : SessionInv s) (hu : s.Unlocked txn) (id : LockDataId) :
    ¬ (s.locks.getLockRequestQueue id).HasRequest txn ∧ ¬ (s.locks.getLockRequestQueue id).Upgrading txn := by
  refine ⟨(h.locks.own txn).absent hu.2 ?_, (h.locks.own txn).idle hu.2⟩
  rw [hu.1]
  exact Finset.notMem_empty id

/-- A thread that has returned leaves nothing exactly when it was outside of a transaction. -/
theorem SessionInv.nothingLeft_iff (h : SessionInv s) :
    NothingLeft s ↔ ∀ client, s.stage client = .returned → s.OutsideTransaction client := by
  constructor
  · intro hleft client hret txn htxn t ht
    rcases h.current htxn with ⟨hbegun, -⟩ | ⟨rfl, -⟩
    · rw [(h.known ht).1]
      exact (hleft client hret txn hbegun).1
    · obtain ⟨-, c, hc⟩ := h.known ht
      exact absurd (h.fresh hc).1 (by decide)
  · intro hout client hret txn hbegun
    have hdone : (s.lastState txn).Ended ∧ s.Unlocked txn := by
      rcases h.past hbegun with hcur | hdone
      · rcases h.current hcur with ⟨-, t, ht⟩ | ⟨rfl, -⟩
        · have hended : (s.lastState txn).Ended := (h.known ht).1 ▸ hout client hret txn hcur t ht
          have hstage := h.stage hcur
          rw [hret] at hstage
          exact ⟨hended, hstage.2 hended, hstage.1⟩
        · exact absurd (h.fresh hbegun).1 (by decide)
      · exact hdone
    exact ⟨hdone.1, h.no_request hdone.2⟩

structure Advance (s s' : LockServer) (client : Nat) (txn : TxnId) : Prop where
  locks : LockState.LockInv s'.locks
  nextTxnId : s'.server.nextTxnId = s.server.nextTxnId
  txnId : s'.server.txnId = s.server.txnId
  begun : s'.begun = s.begun
  others : ∀ u, u ≠ txn → s'.server.txnMap u = s.server.txnMap u ∧ s'.lastState u = s.lastState u ∧
    s'.locks.lockSet u = s.locks.lockSet u ∧ s'.locks.waiting u = s.locks.waiting u
  own : (s'.server.txnMap txn).map Transaction.state = (s.server.txnMap txn).map fun _ => s'.lastState txn
  stages : ∀ other, other ≠ client → s'.stage other = s.stage other
  stage : s'.StageInv txn (s'.stage client)

theorem Advance.trans {s'' : LockServer} (h : Advance s s' client txn) (h' : Advance s' s'' client txn) :
    Advance s s'' client txn where
  locks := h'.locks
  nextTxnId := h'.nextTxnId.trans h.nextTxnId
  txnId := h'.txnId.trans h.txnId
  begun := h'.begun.trans h.begun
  others u hu := by
    obtain ⟨hmap, hlast, hset, hwait⟩ := h.others u hu
    obtain ⟨hmap', hlast', hset', hwait'⟩ := h'.others u hu
    exact ⟨hmap'.trans hmap, hlast'.trans hlast, hset'.trans hset, hwait'.trans hwait⟩
  own := by
    have hsome := congrArg (Option.map fun _ => s''.lastState txn) h.own
    rw [Option.map_map, Option.map_map] at hsome
    exact h'.own.trans hsome
  stages other ho := (h'.stages other ho).trans (h.stages other ho)
  stage := h'.stage

theorem Advance.stageInv (ha : Advance s s' client txn) (hu : u ≠ txn) (stage : SessionStage) :
    s'.StageInv u stage ↔ s.StageInv u stage := by
  obtain ⟨-, hlast, hset, hwait⟩ := ha.others u hu
  cases stage <;> simp only [StageInv, hlast, hset, hwait]

theorem Advance.unlocked (ha : Advance s s' client txn) (hu : u ≠ txn) : s'.Unlocked u ↔ s.Unlocked u := by
  obtain ⟨-, -, hset, hwait⟩ := ha.others u hu
  rw [Unlocked, Unlocked, hset, hwait]

theorem SessionInv.other_txn (h : SessionInv s) (hb : txn ∈ s.begun client) (ho : other ≠ client)
    (hu : s.server.txnId other = some u) : u ≠ txn := by
  rintro rfl
  rcases h.current hu with ⟨hbegun, -⟩ | ⟨rfl, -⟩
  · exact ho (h.apart hbegun hb)
  · exact absurd (h.fresh hb).1 (by decide)

theorem SessionInv.advance (h : SessionInv s) (hcur : s.server.txnId client = some txn)
    (hb : txn ∈ s.begun client) (ha : Advance s s' client txn) : SessionInv s' where
  locks := ha.locks
  nextTxnId := by rw [ha.nextTxnId]; exact h.nextTxnId
  fresh hu := by
    rw [ha.begun] at hu
    rw [ha.nextTxnId]
    exact h.fresh hu
  apart hu hu' := by
    rw [ha.begun] at hu hu'
    exact h.apart hu hu'
  idle u hu := by
    rw [ha.begun] at hu
    have hne : u ≠ txn := fun hc => hu client (hc ▸ hb)
    exact (ha.unlocked hne).2 (h.idle u hu)
  known := by
    intro u t ht
    rw [ha.begun]
    by_cases hu : u = txn
    · subst hu
      have hown := ha.own
      rw [ht] at hown
      obtain ⟨-, -, hstate⟩ := Option.map_eq_some_iff.1 hown.symm
      exact ⟨hstate.symm, client, hb⟩
    · obtain ⟨hmap, hlast, -⟩ := ha.others u hu
      rw [hmap] at ht
      rw [hlast]
      exact h.known ht
  current := by
    intro c u hu
    rw [ha.txnId] at hu
    rw [ha.begun]
    by_cases hc : c = client
    · subst hc
      obtain rfl : u = txn := Option.some.inj (hu.symm.trans hcur)
      obtain ⟨-, t, ht⟩ :=
        (h.current hu).resolve_right fun hinv => absurd (h.fresh hb).1 (by rw [hinv.1]; decide)
      have hown := ha.own
      rw [ht] at hown
      obtain ⟨t', ht', -⟩ := Option.map_eq_some_iff.1 hown
      exact .inl ⟨hb, t', ht'⟩
    · rw [(ha.others u (h.other_txn hb hc hu)).1, ha.stages c hc]
      exact h.current hu
  past := by
    intro c u hu
    rw [ha.begun] at hu
    rw [ha.txnId]
    by_cases hut : u = txn
    · subst hut
      obtain rfl := h.apart hu hb
      exact .inl hcur
    · rw [ha.unlocked hut, (ha.others u hut).2.1]
      exact h.past hu
  stage := by
    intro c u hu
    rw [ha.txnId] at hu
    by_cases hc : c = client
    · subst hc
      obtain rfl : u = txn := Option.some.inj (hu.symm.trans hcur)
      exact ha.stage
    · rw [ha.stages c hc, ha.stageInv (h.other_txn hb hc hu)]
      exact h.stage hu

theorem SessionInv.own (h : SessionInv s) :
    (s.server.txnMap txn).map Transaction.state = (s.server.txnMap txn).map fun _ => s.lastState txn := by
  cases ht : s.server.txnMap txn with
  | none => rfl
  | some t => exact congrArg some (h.known ht).1

section Steps

variable (h : SessionInv s)

include h

theorem SessionInv.advance_stage (log : List TxnLogRecord) {stage : SessionStage}
    (hstage : s.StageInv txn stage) :
    Advance s ({ s with server := { s.server with log := log } }.setStage client stage) client txn where
  locks := h.locks
  nextTxnId := rfl
  txnId := rfl
  begun := rfl
  others _ _ := ⟨rfl, rfl, rfl, rfl⟩
  own := h.own
  stages _ ho := Function.update_of_ne ho ..
  stage := by
    rw [setStage_stage]
    exact (stageInv_congr rfl rfl stage).2 hstage

theorem SessionInv.advance_locks {locks : LockState} (hlocks : LockState.LockInv locks)
    (hothers : ∀ u, u ≠ txn → locks.lockSet u = s.locks.lockSet u ∧ locks.waiting u = s.locks.waiting u)
    (hstage : ({ s with locks := locks } : LockServer).StageInv txn (s.stage client)) :
    Advance s { s with locks := locks } client txn where
  locks := hlocks
  nextTxnId := rfl
  txnId := rfl
  begun := rfl
  others u hu := ⟨rfl, rfl, hothers u hu⟩
  own := h.own
  stages _ _ := rfl
  stage := hstage

theorem SessionInv.advance_begin (hstage : s.StageInv txn .replying) :
    Advance s ({ s with server := s.server.setTxnMode txn true }.setStage client .replying) client txn where
  locks := h.locks
  nextTxnId := rfl
  txnId := rfl
  begun := rfl
  others u hu := ⟨Function.update_of_ne hu .., rfl, rfl, rfl⟩
  own := by
    simp only [setStage, Server.setTxnMode, Function.update_self, Option.map_map]
    exact h.own
  stages _ ho := Function.update_of_ne ho ..
  stage := by
    rw [setStage_stage]
    exact (stageInv_congr rfl rfl .replying).2 hstage

theorem SessionInv.advance_settle {state : TransactionState} (hwait : s.locks.waiting txn = none)
    (hset : s.locks.lockSet txn = ∅) (auto : Bool) :
    Advance s (s.settle client txn state auto) client txn where
  locks := h.locks
  nextTxnId := rfl
  txnId := rfl
  begun := rfl
  others u hu := ⟨Function.update_of_ne hu .., Function.update_of_ne hu .., rfl, rfl⟩
  own := by
    simp only [settle, Server.setState, Function.update_self, Option.map_map]
    rfl
  stages _ ho := Function.update_of_ne ho ..
  stage := by
    change StageInv (s.settle client txn state auto) txn (Function.update s.stage client _ client)
    rw [Function.update_self]
    cases auto <;> exact ⟨hwait, fun _ => hset⟩

theorem SessionInv.advance_stop (hstage : s.StageInv txn (s.stage client)) : Advance s s.stop client txn where
  locks := h.locks
  nextTxnId := rfl
  txnId := rfl
  begun := rfl
  others _ _ := ⟨rfl, rfl, rfl, rfl⟩
  own := h.own
  stages _ _ := rfl
  stage := (stageInv_congr rfl rfl _).2 hstage

end Steps

def Continues (s s' : LockServer) (client : Nat) (txn : TxnId) : Prop :=
  Advance s s' client txn ∧ s'.stage client ≠ .returned

theorem throwAbort_cases (s : LockServer) (client : Nat) (txn : TxnId) (stage : SessionStage) :
    s.throwAbort client txn stage = s.stop ∨ s.throwAbort client txn stage = s.abort client txn true := by
  unfold throwAbort
  split
  · exact .inl rfl
  · exact .inr rfl

section Continues

variable (h : SessionInv s) (hcur : s.server.txnId client = some txn)

include h

theorem SessionInv.continues_commit (hwait : s.locks.waiting txn = none) (auto : Bool) :
    Continues s (s.commit client txn auto) client txn := by
  refine ⟨h.advance_stage _ ⟨hwait, .inl rfl⟩, ?_⟩
  rw [commit, setStage_stage]
  exact SessionStage.noConfusion

theorem SessionInv.continues_abort (hlive : ¬ (s.lastState txn).Ended) (caught : Bool) :
    Continues s (s.abort client txn caught) client txn := by
  refine ⟨h.advance_stage _ hlive, ?_⟩
  rw [abort, setStage_stage]
  exact SessionStage.noConfusion

theorem SessionInv.continues_replying (hwait : s.locks.waiting txn = none)
    (hlive : ¬ (s.lastState txn).Ended) :
    Continues s (s.setStage client .replying) client txn := by
  refine ⟨h.advance_stage s.server.log ⟨hwait, fun hc => absurd hc hlive⟩, ?_⟩
  rw [setStage_stage]
  exact SessionStage.noConfusion

theorem SessionInv.continues_finish (hwait : s.locks.waiting txn = none) (hlive : ¬ (s.lastState txn).Ended)
    (e : StatementEnd) : Continues s (s.finish client txn e) client txn := by
  cases e with
  | ends => exact h.continues_replying hwait hlive
  | begin =>
      refine ⟨h.advance_begin ⟨hwait, fun hc => absurd hc hlive⟩, ?_⟩
      rw [finish, setStage_stage]
      exact SessionStage.noConfusion
  | commit | checkpoint => exact h.continues_commit hwait false
  | rollback => exact h.continues_abort hlive false
  | txnAbort => exact h.continues_abort hlive true

theorem SessionInv.continues_autoCommit (hwait : s.locks.waiting txn = none)
    (hset : (s.lastState txn).Ended → s.locks.lockSet txn = ∅) :
    Continues s (s.autoCommit client txn) client txn := by
  have hread : Continues s (s.setStage client .reading) client txn := by
    refine ⟨h.advance_stage s.server.log ⟨hwait, hset⟩, ?_⟩
    rw [setStage_stage]
    exact SessionStage.noConfusion
  rw [autoCommit]
  split
  · exact hread
  · split
    · exact h.continues_commit hwait true
    · exact hread

theorem SessionInv.continues_wake (hlive : ¬ (s.lastState txn).Ended)
    (hstage : s.stage client = .executing ∨ ∃ caught, s.stage client = .undoing caught)
    {res : LockResult × LockState} (hs : s.locks.wakeUp txn = some res) :
    Continues s { s with locks := res.2 } client txn := by
  have hne : s.stage client ≠ .returned :=
    by rcases hstage with hst | ⟨caught, hst⟩ <;> rw [hst] <;> exact SessionStage.noConfusion
  refine ⟨h.advance_locks (h.locks.wakeUp hs) (fun u hu => LockState.wakeUp_others hs hu) ?_, hne⟩
  rcases hstage with hst | ⟨caught, hst⟩ <;> rw [hst] <;> exact hlive

include hcur

theorem SessionInv.continues_stop (hstage : s.stage client ≠ .returned) : Continues s s.stop client txn :=
  ⟨h.advance_stop (h.stage hcur), hstage⟩

theorem SessionInv.continues_throwAbort (hlive : ¬ (s.lastState txn).Ended)
    (hstage : s.stage client ≠ .returned) (stage : SessionStage) :
    Continues s (s.throwAbort client txn stage) client txn := by
  rcases throwAbort_cases s client txn stage with hthrow | hthrow <;> rw [hthrow]
  · exact h.continues_stop hcur hstage
  · exact h.continues_abort hlive true

/-- A call that dies in the lock manager aborts the transaction, or ends the process. -/
theorem SessionInv.continues_lockCall (hb : txn ∈ s.begun client) (hlive : ¬ (s.lastState txn).Ended)
    (hstage : s.stage client = .executing ∨ ∃ caught, s.stage client = .undoing caught)
    {fd : Int} {mode : LockMode} (hm : mode = .shared ∨ mode = .exlucsive)
    (hs : s.lockCall client txn fd mode = some s') :
    Continues s s' client txn := by
  have hne : s.stage client ≠ .returned :=
    by rcases hstage with hst | ⟨caught, hst⟩ <;> rw [hst] <;> exact SessionStage.noConfusion
  obtain ⟨hwait, hs⟩ := Option.ite_none_right_eq_some.1 hs
  have hcall : Advance s { s with locks := (s.locks.lockOnTable txn fd mode).2 } client txn := by
    refine h.advance_locks (h.locks.lockOnTable hwait fd hm)
      (fun u hu => LockState.lockOnTable_others fd mode hu) ?_
    rcases hstage with hst | ⟨caught, hst⟩ <;> rw [hst] <;> exact hlive
  cases hres : (s.locks.lockOnTable txn fd mode).1 with
  | returned | waits =>
      simp only [hres, Option.some.injEq] at hs
      rw [← hs]
      exact ⟨hcall, hne⟩
  | dies =>
      simp only [hres, Option.some.injEq] at hs
      have hnext : Continues { s with locks := (s.locks.lockOnTable txn fd mode).2 } _ client txn :=
        (h.advance hcur hb hcall).continues_throwAbort hcur hlive hne (s.stage client)
      rw [← hs]
      exact ⟨hcall.trans hnext.1, hnext.2⟩
  | nullRequest =>
      simp only [hres, Option.some.injEq] at hs
      rw [← hs]
      exact h.continues_stop hcur hne

end Continues

/-- Before the next statement is read, a step is one within the transaction, and only a failed
reply returns. -/
theorem SessionInv.handler_within (h : SessionInv s) (hcur : s.server.txnId client = some txn)
    (hb : txn ∈ s.begun client) (hread : s.stage client ≠ .reading) {a : SessionStep}
    (hs : s.handler client txn (s.stage client) a = some s') :
    Continues s s' client txn ∧ s.LeavesOutside (client, a) ∨
      a = .reply false ∧ s' = s.setStage client .returned ∧ Advance s s' client txn := by
  have hstage := h.stage hcur
  cases hst : s.stage client with
  | reading => exact absurd hst hread
  | returned => rw [hst] at hs; cases hs
  | executing =>
      rw [hst] at hs hstage
      refine .inl ?_
      cases a with
      | lockShared fd => exact ⟨h.continues_lockCall hcur hb hstage (.inl hst) (.inl rfl) hs, trivial⟩
      | lockExclusive fd => exact ⟨h.continues_lockCall hcur hb hstage (.inl hst) (.inr rfl) hs, trivial⟩
      | wake =>
          obtain ⟨res, hres, rfl⟩ := Option.map_eq_some_iff.1 hs
          exact ⟨h.continues_wake hstage (.inl hst) hres, trivial⟩
      | finish e =>
          obtain ⟨hwait, ⟨⟩⟩ := Option.ite_none_right_eq_some.1 hs
          exact ⟨h.continues_finish hwait hstage e, trivial⟩
      | request | leave | crash | undone | undoThrows | unlock | released | reply => cases hs
  | undoing caught =>
      rw [hst] at hs hstage
      refine .inl ?_
      have hne : s.stage client ≠ .returned := by rw [hst]; exact SessionStage.noConfusion
      cases a with
      | lockShared fd => exact ⟨h.continues_lockCall hcur hb hstage (.inr ⟨_, hst⟩) (.inl rfl) hs, trivial⟩
      | lockExclusive fd => exact ⟨h.continues_lockCall hcur hb hstage (.inr ⟨_, hst⟩) (.inr rfl) hs, trivial⟩
      | wake =>
          obtain ⟨res, hres, rfl⟩ := Option.map_eq_some_iff.1 hs
          exact ⟨h.continues_wake hstage (.inr ⟨_, hst⟩) hres, trivial⟩
      | undone =>
          obtain ⟨hwait, ⟨⟩⟩ := Option.ite_none_right_eq_some.1 hs
          refine ⟨⟨h.advance_stage s.server.log ⟨hwait, .inr rfl⟩, ?_⟩, trivial⟩
          rw [setStage_stage]
          exact SessionStage.noConfusion
      | undoThrows txnAbort =>
          refine ⟨?_, trivial⟩
          cases txnAbort with
          | true =>
              obtain ⟨-, ⟨⟩⟩ := Option.ite_none_right_eq_some.1 hs
              exact h.continues_throwAbort hcur hstage hne _
          | false =>
              obtain ⟨hwait, ⟨⟩⟩ := Option.ite_none_right_eq_some.1 hs
              split
              · exact h.continues_stop hcur hne
              · exact h.continues_replying hwait hstage
      | request | leave | crash | finish | unlock | released | reply => cases hs
  | releasing state auto =>
      rw [hst] at hs hstage
      refine .inl ?_
      cases a with
      | unlock id =>
          obtain ⟨-, ⟨⟩⟩ := Option.ite_none_right_eq_some.1 hs
          have hwait : (s.locks.unlock txn id).waiting = s.locks.waiting := LockState.unlock_waiting id
          refine ⟨⟨h.advance_locks (h.locks.unlock hstage.1)
            (fun u hu => ⟨(LockState.unlock_others id hu).1, ?_⟩) ?_, ?_⟩, trivial⟩
          · rw [hwait]
          · rw [hst]
            exact ⟨(congrFun hwait txn).trans hstage.1, hstage.2⟩
          · change s.stage client ≠ .returned
            rw [hst]
            exact SessionStage.noConfusion
      | released =>
          obtain ⟨hset, ⟨⟩⟩ := Option.ite_none_right_eq_some.1 hs
          refine ⟨⟨h.advance_settle hstage.1 hset auto, ?_⟩, trivial⟩
          change Function.update s.stage client _ client ≠ _
          rw [Function.update_self]
          cases auto <;> exact SessionStage.noConfusion
      | request | leave | crash | lockShared | lockExclusive | wake | finish | undone | undoThrows | reply => cases hs
  | replying =>
      rw [hst] at hs hstage
      cases a with
      | reply written =>
          cases written with
          | true =>
              cases hs
              exact .inl ⟨h.continues_autoCommit hstage.1 hstage.2, trivial⟩
          | false =>
              cases hs
              exact .inr ⟨rfl, rfl, h.advance_stage s.server.log hstage⟩
      | request | leave | crash | lockShared | lockExclusive | wake | finish | undone | undoThrows | unlock | released =>
          cases hs

section Reading

variable (h : SessionInv s)

include h

theorem SessionInv.stop : SessionInv s.stop where
  locks := h.locks
  nextTxnId := h.nextTxnId
  fresh := h.fresh
  apart := h.apart
  idle := h.idle
  known := h.known
  current := h.current
  past := h.past
  stage hcur := (stageInv_congr rfl rfl _).2 (h.stage hcur)

theorem SessionInv.leave (hst : s.stage client = .reading) : SessionInv (s.setStage client .returned) where
  locks := h.locks
  nextTxnId := h.nextTxnId
  fresh := h.fresh
  apart := h.apart
  idle := h.idle
  known := h.known
  current {c u} hcur := by
    refine (h.current hcur).imp_right (And.imp_right fun hstage => ?_)
    by_cases hc : c = client
    · rw [hc, setStage_stage]
      exact .inr rfl
    · rw [setStage_of_ne _ hc]
      exact hstage
  past := h.past
  stage {c u} hcur := by
    have hstage := h.stage hcur
    by_cases hc : c = client
    · subst hc
      rw [hst] at hstage
      rw [setStage_stage]
      exact hstage
    · rw [setStage_of_ne _ hc]
      exact (stageInv_congr rfl rfl _).2 hstage

end Reading

def startOver (s : LockServer) (client : Nat) (map : TxnId → Option Transaction) : LockServer :=
  let txn := s.server.nextTxnId
  { s with
    server := { s.server with
      nextTxnId := txn + 1
      txnMap := Function.update map txn (some ⟨.default, false⟩)
      log := s.server.log ++ [.begin txn]
      txnId := Function.update s.server.txnId client (some txn) }
    stage := Function.update s.stage client .executing
    begun := Function.update s.begun client (txn :: s.begun client)
    lastState := Function.update s.lastState txn .default }

structure Released (s : LockServer) (txn : TxnId) (map : TxnId → Option Transaction) : Prop where
  ended : txn = invalidTxnId ∨ (s.lastState txn).Ended
  others : ∀ u, u ≠ txn → map u = s.server.txnMap u
  sub : ∀ {u t}, map u = some t → s.server.txnMap u = some t

section Receive

variable (h : SessionInv s) (hcur : s.server.txnId client = some txn)

include h hcur

theorem SessionInv.receive_cases : s.receive client txn = s.stop ∨
    (∃ t, s.server.txnMap txn = some t ∧ ¬ t.state.Ended ∧
      s.receive client txn = s.setStage client .executing) ∨
    ∃ map, Released s txn map ∧ s.receive client txn = s.startOver client map := by
  have hlt : s.server.nextTxnId ≠ txn := by
    have hn := h.nextTxnId
    rcases h.current hcur with ⟨hb, -⟩ | ⟨rfl, -⟩
    · exact (h.fresh hb).2.ne'
    · intro hc
      rw [hc] at hn
      exact absurd hn (by decide)
  rw [receive]
  split
  · exact .inl rfl
  · rename_i hassert
    refine .inr ?_
    rw [Server.setTransaction]
    cases hm : s.server.txnMap txn with
    | none =>
        have hinv : txn = invalidTxnId := not_not.1 fun hc => hassert ⟨hc, hm⟩
        refine .inr ⟨s.server.txnMap, ⟨.inl hinv, fun _ _ => rfl, id⟩, ?_⟩
        simp only [Server.begin, hlt, if_false]
        rfl
    | some t =>
        by_cases hended : t.state = .committed ∨ t.state = .aborted
        · refine .inr ⟨(s.server.releaseTxn txn).txnMap, ⟨.inr ((h.known hm).1 ▸ hended), ?_, ?_⟩, ?_⟩
          · exact fun u hu => Function.update_of_ne hu ..
          · intro u t' ht'
            have hu : u ≠ txn := by
              rintro rfl
              simp [Server.releaseTxn] at ht'
            have hkeep : (s.server.releaseTxn txn).txnMap u = s.server.txnMap u := Function.update_of_ne hu ..
            exact hkeep.symm.trans ht'
          · simp only [if_pos hended, Server.begin, Server.releaseTxn, hlt, if_false]
            rfl
        · refine .inl ⟨t, rfl, hended, ?_⟩
          have hsame : Function.update s.server.txnId client (some txn) = s.server.txnId := by
            rw [← hcur, Function.update_eq_self]
          simp only [if_neg hended, if_true, hsame]
          rfl

end Receive

theorem SessionInv.other_ne (h : SessionInv s) (hcur : s.server.txnId client = some txn) (ho : other ≠ client)
    (hu : s.server.txnId other = some u) (hb : u ∈ s.begun other) : u ≠ txn := by
  rintro rfl
  rcases h.current hcur with ⟨hb', -⟩ | ⟨rfl, -⟩
  · exact ho (h.apart hb hb')
  · exact absurd (h.fresh hb).1 (by decide)

theorem SessionInv.startOver (h : SessionInv s) (hcur : s.server.txnId client = some txn)
    (hst : s.stage client = .reading) {map : TxnId → Option Transaction} (hmap : Released s txn map) :
    SessionInv (s.startOver client map) := by
  have hold : ∀ {c u}, u ∈ s.begun c → u ≠ s.server.nextTxnId := fun hu => (h.fresh hu).2.ne
  have hinv : invalidTxnId ≠ s.server.nextTxnId := by
    intro hc
    exact absurd (hc ▸ h.nextTxnId) (by decide)
  have hbegun : ∀ {c u}, u ∈ (s.startOver client map).begun c ↔
      u ∈ s.begun c ∨ (c = client ∧ u = s.server.nextTxnId) := by
    intro c u
    by_cases hc : c = client
    · subst hc
      simp only [LockServer.startOver, Function.update_self, List.mem_cons, true_and, or_comm]
    · simp only [LockServer.startOver, Function.update_of_ne hc, hc, false_and, or_false]
  have hlast : ∀ {u}, u ≠ s.server.nextTxnId → (s.startOver client map).lastState u = s.lastState u :=
    fun hu => Function.update_of_ne hu ..
  have htxnId : ∀ {c}, c ≠ client → (s.startOver client map).server.txnId c = s.server.txnId c :=
    fun hc => Function.update_of_ne hc ..
  have hself : (s.startOver client map).server.txnId client = some s.server.nextTxnId :=
    Function.update_self ..
  have hmaps : ∀ {u}, u ≠ s.server.nextTxnId → (s.startOver client map).server.txnMap u = map u :=
    fun hu => Function.update_of_ne hu ..
  have hnew : (s.startOver client map).server.txnMap s.server.nextTxnId = some ⟨.default, false⟩ :=
    Function.update_self ..
  have hdefault : (s.startOver client map).lastState s.server.nextTxnId = .default := Function.update_self ..
  have hstages : ∀ {c}, c ≠ client →
    (s.startOver client map).stage c = s.stage c := fun hc => Function.update_of_ne hc ..
  refine
    { locks := h.locks
      nextTxnId := h.nextTxnId.trans (Int.le_add_one le_rfl)
      fresh := ?_, apart := ?_, idle := ?_, known := ?_, current := ?_, past := ?_, stage := ?_ }
  · intro c u hu
    rcases hbegun.1 hu with hu | ⟨-, rfl⟩
    · exact ⟨(h.fresh hu).1, (h.fresh hu).2.trans (Int.lt_succ _)⟩
    · exact ⟨h.nextTxnId, Int.lt_succ _⟩
  · intro c c' u hu hu'
    rcases hbegun.1 hu with hu | ⟨rfl, rfl⟩ <;> rcases hbegun.1 hu' with hu' | ⟨hc', heq⟩
    · exact h.apart hu hu'
    · exact absurd heq (hold hu)
    · exact absurd rfl (hold hu')
    · exact hc'.symm
  · intro u hu
    exact h.idle u fun c hc => hu c (hbegun.2 (.inl hc))
  · intro u t ht
    by_cases hu : u = s.server.nextTxnId
    · subst hu
      cases hnew.symm.trans ht
      exact ⟨hdefault.symm, client, hbegun.2 (.inr ⟨rfl, rfl⟩)⟩
    · rw [hmaps hu] at ht
      obtain ⟨hstate, c, hc⟩ := h.known (hmap.sub ht)
      exact ⟨by rw [hlast hu]; exact hstate, c, hbegun.2 (.inl hc)⟩
  · intro c u hu
    by_cases hc : c = client
    · subst hc
      obtain rfl : s.server.nextTxnId = u := Option.some.inj (hself.symm.trans hu)
      exact .inl ⟨hbegun.2 (.inr ⟨rfl, rfl⟩), _, hnew⟩
    · rw [htxnId hc] at hu
      rw [hstages hc]
      refine (h.current hu).imp_left ?_
      rintro ⟨hb, t, ht⟩
      refine ⟨hbegun.2 (.inl hb), t, ?_⟩
      rw [hmaps (hold hb), hmap.others u (h.other_ne hcur hc hu hb), ht]
  · intro c u hu
    rcases hbegun.1 hu with hmem | ⟨rfl, rfl⟩
    · rw [hlast (hold hmem)]
      by_cases hc : c = client
      · subst hc
        refine .inr ?_
        rcases h.past hmem with hu' | hpast
        · -- the transaction that the client has left
          obtain rfl : txn = u := Option.some.inj (hcur.symm.trans hu')
          have hended := hmap.ended.resolve_left fun hc => absurd (h.fresh hmem).1 (by rw [hc]; decide)
          have hstage := h.stage hcur
          rw [hst] at hstage
          exact ⟨hended, hstage.2 hended, hstage.1⟩
        · exact hpast
      · rw [htxnId hc]
        exact h.past hmem
    · exact .inl hself
  · intro c u hu
    by_cases hc : c = client
    · subst hc
      obtain rfl : s.server.nextTxnId = u := Option.some.inj (hself.symm.trans hu)
      rw [show (s.startOver c map).stage c = .executing from Function.update_self ..]
      change ¬ ((s.startOver c map).lastState _).Ended
      rw [hdefault]
      decide
    · rw [htxnId hc] at hu
      have hne : u ≠ s.server.nextTxnId := by
        rcases h.current hu with ⟨hb, -⟩ | ⟨rfl, -⟩
        · exact hold hb
        · exact hinv
      rw [hstages hc]
      have hstage := h.stage hu
      cases hs : s.stage c <;> rw [hs] at hstage <;> simp only [StageInv, hlast hne] <;> exact hstage

theorem SessionInv.nothingLeft_of_outside (h : SessionInv s) (h' : SessionInv s') (hleft : NothingLeft s)
    (hout : ∀ c, s'.stage c = .returned → s.stage c = .returned ∧
      (s.OutsideTransaction c → s'.OutsideTransaction c)) :
    NothingLeft s' := by
  refine h'.nothingLeft_iff.2 fun c hc => ?_
  obtain ⟨hret, himp⟩ := hout c hc
  exact himp (h.nothingLeft_iff.1 hleft c hret)

theorem SessionInv.nothingLeft_returned (h : SessionInv s) (h' : SessionInv (s.setStage client .returned))
    (hleft : NothingLeft s) :
    NothingLeft (s.setStage client .returned) ↔ s.OutsideTransaction client := by
  rw [h'.nothingLeft_iff]
  constructor
  · intro hall
    exact hall client (setStage_stage _)
  · intro hout c hc
    by_cases hcc : c = client
    · exact hcc ▸ hout
    · rw [setStage_of_ne _ hcc] at hc
      exact h.nothingLeft_iff.1 hleft c hc

theorem SessionInv.nothingLeft_continues (h : SessionInv s) (hcur : s.server.txnId client = some txn)
    (hb : txn ∈ s.begun client) (hleft : NothingLeft s) (hc : Continues s s' client txn) :
    SessionInv s' ∧ NothingLeft s' := by
  have h' := h.advance hcur hb hc.1
  refine ⟨h', h.nothingLeft_of_outside h' hleft fun c hret => ?_⟩
  have hne : c ≠ client := fun heq => hc.2 (heq ▸ hret)
  refine ⟨(hc.1.stages c hne).symm.trans hret, fun hout u hu t ht => ?_⟩
  rw [hc.1.txnId] at hu
  rw [(hc.1.others u (h.other_txn hb hne hu)).1] at ht
  exact hout u hu t ht

theorem SessionInv.nothingLeft_receive (h : SessionInv s) (hcur : s.server.txnId client = some txn)
    (hst : s.stage client = .reading) (hleft : NothingLeft s) :
    SessionInv (s.receive client txn) ∧ NothingLeft (s.receive client txn) := by
  rcases h.receive_cases hcur with hrec | ⟨t, ht, hlive, hrec⟩ | ⟨map, hmap, hrec⟩ <;> rw [hrec]
  · exact ⟨h.stop, h.nothingLeft_of_outside h.stop hleft fun c hc => ⟨hc, id⟩⟩
  · have hb : txn ∈ s.begun client := by
      rcases h.current hcur with ⟨hb, -⟩ | ⟨rfl, -⟩
      · exact hb
      · obtain ⟨-, c, hc⟩ := h.known ht
        exact absurd (h.fresh hc).1 (by decide)
    refine h.nothingLeft_continues hcur hb hleft ⟨h.advance_stage s.server.log ?_, ?_⟩
    · rw [(h.known ht).1] at hlive
      exact hlive
    · rw [setStage_stage]
      exact SessionStage.noConfusion
  · have h' := h.startOver hcur hst hmap
    refine ⟨h', h.nothingLeft_of_outside h' hleft fun c hc => ?_⟩
    have hne : c ≠ client := by
      rintro rfl
      rw [show (s.startOver c map).stage c = .executing from Function.update_self ..] at hc
      cases hc
    refine ⟨(Function.update_of_ne hne ..).symm.trans hc, fun hout u hu t ht => ?_⟩
    rw [show (s.startOver client map).server.txnId c = s.server.txnId c from Function.update_of_ne hne ..]
      at hu
    rcases h.current hu with ⟨hb, -⟩ | ⟨rfl, -⟩
    · rw [show (s.startOver client map).server.txnMap u =
        map u from Function.update_of_ne (h.fresh hb).2.ne ..] at ht
      exact hout u hu t (hmap.sub ht)
    · obtain ⟨-, c', hc'⟩ := h'.known ht
      exact absurd (h'.fresh hc').1 (by decide)

/-- A step leaves something behind only where it leaves the loop within a transaction. -/
theorem SessionInv.step (h : SessionInv s) (hleft : NothingLeft s) {a : Nat × SessionStep}
    (hs : s.step a = some s') :
    SessionInv s' ∧ (NothingLeft s' ↔ s.LeavesOutside a) := by
  obtain ⟨client, a⟩ := a
  obtain ⟨-, hs⟩ := Option.ite_none_right_eq_some.1 hs
  obtain ⟨txn, hcur, hs⟩ := Option.bind_eq_some_iff.1 hs
  simp only at hcur hs
  by_cases hst : s.stage client = .reading
  · rw [hst] at hs
    cases a with
    | request =>
        cases hs
        obtain ⟨h', hleft'⟩ := h.nothingLeft_receive hcur hst hleft
        exact ⟨h', iff_of_true hleft' trivial⟩
    | leave =>
        cases hs
        have h' := h.leave hst
        exact ⟨h', h.nothingLeft_returned h' hleft⟩
    | crash =>
        cases hs
        exact ⟨h.stop, iff_of_true (h.nothingLeft_of_outside h.stop hleft fun c hc => ⟨hc, id⟩) trivial⟩
    | lockShared | lockExclusive | wake | finish | undone | undoThrows | unlock | released | reply => cases hs
  · by_cases hret : s.stage client = .returned
    · rw [hret] at hs
      cases hs
    · have hb : txn ∈ s.begun client := by
        rcases h.current hcur with ⟨hb, -⟩ | ⟨-, hstage⟩
        · exact hb
        · exact absurd hstage (not_or.2 ⟨hst, hret⟩)
      rcases h.handler_within hcur hb hst hs with ⟨hc, hok⟩ | ⟨rfl, rfl, hadv⟩
      · obtain ⟨h', hleft'⟩ := h.nothingLeft_continues hcur hb hleft hc
        exact ⟨h', iff_of_true hleft' hok⟩
      · have h' := h.advance hcur hb hadv
        exact ⟨h', h.nothingLeft_returned h' hleft⟩

/-- In a run the handlers that have returned have left no lock request and no open transaction,
exactly while each of them left its loop outside of transactions. -/
theorem nothingLeft_iff_leavesOutside (steps : List (Nat × SessionStep)) (s : LockServer)
    (hrun : Trace.run step init steps = some s) :
    Trace.Always step NothingLeft init steps ↔ Trace.Guarded step LeavesOutside init steps := by
  have hgood : Trace.Guarded step (fun _ _ => True) init steps := Trace.guarded_of_forall fun _ _ => trivial
  refine Trace.always_iff_guarded (I := SessionInv) ?_ ?_ sessionInv_init ?_ hgood hrun
  · exact fun s a s' h hleft _ hs => (h.step hleft hs).1
  · exact fun s a s' h hleft _ hs => (h.step hleft hs).2
  · intro client hret
    cases hret

instance (s : LockServer) : (a : Nat × SessionStep) → Decidable (s.LeavesOutside a)
  | (client, .leave) | (client, .reply false) => inferInstanceAs (Decidable (s.OutsideTransaction client))
  | (_, .reply true) | (_, .request) | (_, .crash) | (_, .lockShared _) | (_, .lockExclusive
    _) | (_, .wake) | (_, .finish _)
  | (_, .undone) | (_, .undoThrows _) | (_, .unlock _) | (_, .released) => .isTrue trivial

/-- One client writes a table in a transaction that it commits, another one is refused the lock
and aborted. -/
def twoSessions : List (Nat × SessionStep) :=
  [(0, .request), (0, .finish .begin), (0, .reply true), (0, .request), (0, .lockExclusive 3), (1, .request),
    (1, .lockShared 3), (0, .finish .ends), (0, .reply true), (1, .undone), (1, .released),
    (1, .reply true), (1, .released),
    (1, .leave), (0, .request), (0, .finish .commit), (0, .unlock (.table 3)), (0, .released),
    (0, .reply true), (0, .leave)]

theorem nothingLeft_twoSessions :
    ∃ s, Trace.run step init twoSessions = some s ∧ Trace.Always step NothingLeft init twoSessions := by
  refine ⟨_, rfl, (nothingLeft_iff_leavesOutside twoSessions _ rfl).2 ?_⟩
  decide

/-- A client disconnects in a transaction opened with BEGIN: its X lock stays in the queue. -/
theorem lock_left_behind : ∃ s, Trace.run step init
      [(0, .request), (0, .finish .begin), (0, .reply true), (0, .request), (0, .lockExclusive 3),
        (0, .finish .ends),
        (0, .reply true), (0, .leave)] = some s ∧
    s.stage 0 = .returned ∧ s.begun 0 = [0] ∧ s.lastState 0 = .default ∧
    (s.locks.getLockRequestQueue (.table 3)).requestQueue = [⟨0, .exlucsive, true⟩] ∧ ¬ NothingLeft s := by
  refine ⟨_, rfl, rfl, rfl, rfl, by decide, fun h => ?_⟩
  exact absurd (h 0 rfl 0 (List.mem_singleton_self 0)).1 (by decide)

end LockServer

end Rmdb
