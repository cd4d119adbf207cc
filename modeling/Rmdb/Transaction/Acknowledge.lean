import Rmdb.Lib.Trace
import Rmdb.Recovery.History
import Rmdb.Recovery.LogManager

namespace Rmdb

inductive SingleStmt
  /-- a statement that may change data -/
  | data
  /-- COMMIT, or a static checkpoint -/
  | commit
  /-- ABORT or ROLLBACK -/
  | rollback
  | other

/-- The transaction of a request: whether its statement has changed data, and the records of the
changes that are logged. LOAD and CREATE INDEX change data without a record. -/
structure SingleTxn where
  id : TxnId
  prevLsn : Lsn
  changed : Bool
  records : List LogRecord

inductive Handler
  | waiting
  | executing (txn : SingleTxn) (stmt : SingleStmt)
  /-- inside `commit` or `abort`: the record is appended, and the log not flushed yet -/
  | ending (txn : SingleTxn) (committed : Bool)
  /-- before the reply is written -/
  | executed (txn : SingleTxn) (committed : Bool)
  | replied (txn : SingleTxn) (committed : Bool)
  | committing (txn : SingleTxn)
  | closed

inductive HandlerStep
  | receive (stmt : SingleStmt)
  | change (w : Write)
  | changeUnlogged
  | finish
  /-- COMMIT, ROLLBACK, or a `TransactionAbortException` -/
  | appendEnd
  | flushEnd
  | reply (written : Bool)
  | autoCommit
  | flushCommit

/-- The threads of `client_handler` outside of explicit transactions. `acks` has the transactions whose
statement has changed data and whose reply has been written, with the records of the changes. -/
structure ReplyServer where
  log : LogManager
  nextTxnId : TxnId
  handlers : Nat → Handler
  acks : List (TxnId × List LogRecord)

namespace ReplyServer

variable (s : ReplyServer) (c : Nat) (txn : SingleTxn)

def init : ReplyServer := ⟨.init, 0, fun _ => .waiting, []⟩

def setHandler (h : Handler) : ReplyServer := { s with handlers := Function.update s.handlers c h }

def append (body : LogBody) : ReplyServer := { s with log := s.log.addLogToBuffer txn.id txn.prevLsn body }

def flush : ReplyServer := { s with log := s.log.flushLogToDisk }

def begin : SingleTxn × ReplyServer :=
  (⟨s.nextTxnId, s.log.globalLsn, false, []⟩,
    { s with nextTxnId := s.nextTxnId + 1, log := s.log.addLogToBuffer s.nextTxnId invalidLsn .begin })

def change (w : Write) : SingleTxn × ReplyServer :=
  let r := s.log.record txn.id txn.prevLsn (.write w)
  ({ txn with prevLsn := r.lsn, changed := true, records := txn.records ++ [r] }, s.append txn (.write w))

def acknowledge : ReplyServer := if txn.changed then { s with acks := (txn.id, txn.records) :: s.acks } else s

def step (s : ReplyServer) (a : Nat × HandlerStep) : Option ReplyServer :=
  match s.handlers a.1, a.2 with
  | .waiting, .receive stmt => some (s.begin.2.setHandler a.1 (.executing s.begin.1 stmt))
  | .executing txn .data, .change w =>
      some ((s.change txn w).2.setHandler a.1 (.executing (s.change txn w).1 .data))
  | .executing txn .data, .changeUnlogged =>
      some (s.setHandler a.1 (.executing { txn with changed := true } .data))
  | .executing txn .data, .finish | .executing txn .other, .finish =>
      some (s.setHandler a.1 (.executed txn false))
  | .executing txn .commit, .appendEnd => some ((s.append txn .commit).setHandler a.1 (.ending txn true))
  -- the changes are rolled back
  | .executing txn .data, .appendEnd | .executing txn .rollback, .appendEnd =>
      some ((s.append txn .abort).setHandler a.1 (.ending { txn with changed := false } false))
  | .ending txn committed, .flushEnd => some (s.flush.setHandler a.1 (.executed txn committed))
  | .executed txn committed, .reply true => some ((s.acknowledge txn).setHandler a.1 (.replied txn committed))
  | .executed _ _, .reply false => some (s.setHandler a.1 .closed)
  | .replied _ true, .autoCommit => some (s.setHandler a.1 .waiting)
  | .replied txn false, .autoCommit => some ((s.append txn .commit).setHandler a.1 (.committing txn))
  | .committing _, .flushCommit => some (s.flush.setHandler a.1 .waiting)
  | _, _ => none

/-- The COMMIT record and the records of the changes of every acknowledged statement are in the log file. -/
def Durable (s : ReplyServer) : Prop :=
  ∀ a ∈ s.acks, (∃ r ∈ s.log.file, r.logTid = a.1 ∧ r.body.isCommit) ∧ ∀ r ∈ a.2, r ∈ s.log.file

def Acknowledges (s : ReplyServer) (a : Nat × HandlerStep) : Prop :=
  a.2 = .reply true ∧ ∃ txn committed, s.handlers a.1 = .executed txn committed ∧ txn.changed = true

end ReplyServer

namespace Handler

def uncommitted : Handler → Option SingleTxn
  | executing txn _ | ending txn false | executed txn false | replied txn false => some txn
  | _ => none

def Settled : Handler → Prop
  | executing txn stmt => stmt ≠ .data → txn.changed = false
  | ending txn committed | executed txn committed => committed = true → txn.changed = false
  | _ => True

end Handler

namespace ReplyServer

variable {s s' : ReplyServer} {c : Nat} {a : Nat × HandlerStep} {txn : SingleTxn}

/-- The log has no COMMIT record of a transaction that has not been committed, and no two requests share
a transaction. -/
structure Inv (s : ReplyServer) : Prop where
  fresh : ∀ r ∈ s.log.records, r.logTid < s.nextTxnId
  mapped : ∀ c txn, (s.handlers c).uncommitted = some txn → txn.id < s.nextTxnId
  apart : ∀ c c' txn txn', (s.handlers c).uncommitted = some txn → (s.handlers c').uncommitted = some txn' →
    txn.id = txn'.id → c = c'
  uncommitted : ∀ c txn, (s.handlers c).uncommitted = some txn →
    ∀ r ∈ s.log.records, r.logTid = txn.id → r.body.isCommit = false
  settled : ∀ c, (s.handlers c).Settled

theorem init_inv : Inv init where
  fresh := List.forall_mem_nil _
  mapped := nofun
  apart := nofun
  uncommitted := nofun
  settled _ := trivial

theorem Inv.move (h : Inv s) (txn : SingleTxn) {handler : Handler} {log : LogManager}
    {acks : List (TxnId × List LogRecord)}
    (hsame : ∀ txn', handler.uncommitted = some txn' →
      (s.handlers c).uncommitted = some txn ∧ txn'.id = txn.id)
    (hlog : ∀ r ∈ log.records, r ∈ s.log.records ∨ (s.handlers c).uncommitted = some txn ∧ r.logTid = txn.id ∧
      (r.body.isCommit = true → handler.uncommitted = none))
    (hsettled : handler.Settled) :
    Inv { s with log := log, handlers := Function.update s.handlers c handler, acks := acks } where
  fresh := by
    intro r hr
    rcases hlog r hr with hr | ⟨hc, hid, -⟩
    · exact h.fresh r hr
    · rw [hid]
      exact h.mapped c txn hc
  mapped := by
    intro c' txn' hc'
    by_cases hcc : c' = c
    · subst hcc
      simp only [Function.update_self] at hc'
      rw [(hsame txn' hc').2]
      exact h.mapped c' txn (hsame txn' hc').1
    · simp only [Function.update_of_ne hcc] at hc'
      exact h.mapped c' txn' hc'
  apart := by
    intro c₁ c₂ txn₁ txn₂ h₁ h₂ hid
    by_cases hc₁ : c₁ = c <;> by_cases hc₂ : c₂ = c
    · rw [hc₁, hc₂]
    · subst hc₁
      simp only [Function.update_self] at h₁
      simp only [Function.update_of_ne hc₂] at h₂
      obtain ⟨hc, hid'⟩ := hsame txn₁ h₁
      exact h.apart c₁ c₂ txn txn₂ hc h₂ (hid'.symm.trans hid)
    · subst hc₂
      simp only [Function.update_self] at h₂
      simp only [Function.update_of_ne hc₁] at h₁
      obtain ⟨hc, hid'⟩ := hsame txn₂ h₂
      exact h.apart c₁ c₂ txn₁ txn h₁ hc (hid.trans hid')
    · simp only [Function.update_of_ne hc₁] at h₁
      simp only [Function.update_of_ne hc₂] at h₂
      exact h.apart c₁ c₂ txn₁ txn₂ h₁ h₂ hid
  uncommitted := by
    intro c' txn' hc' r hr hid
    by_cases hcc : c' = c
    · subst hcc
      simp only [Function.update_self] at hc'
      obtain ⟨hc, hid'⟩ := hsame txn' hc'
      rcases hlog r hr with hr | ⟨-, -, hcommit⟩
      · exact h.uncommitted c' txn hc r hr (hid.trans hid')
      · by_contra hne
        rw [hcommit (Bool.not_eq_false _ ▸ hne)] at hc'
        cases hc'
    · simp only [Function.update_of_ne hcc] at hc'
      rcases hlog r hr with hr | ⟨hc, hid', -⟩
      · exact h.uncommitted c' txn' hc' r hr hid
      · exact absurd (h.apart c' c txn' txn hc' hc (hid.symm.trans hid')) hcc
  settled := by
    intro c'
    by_cases hcc : c' = c
    · subst hcc
      simp only [Function.update_self]
      exact hsettled
    · simp only [Function.update_of_ne hcc]
      exact h.settled c'

theorem Inv.receive (h : Inv s) (stmt : SingleStmt) :
    Inv (s.begin.2.setHandler c (.executing s.begin.1 stmt)) := by
  have hrec : ∀ r ∈ s.begin.2.log.records, r ∈ s.log.records ∨ r.logTid = s.nextTxnId ∧ r.body = .begin := by
    intro r hr
    rw [begin, LogManager.records_addLogToBuffer, List.mem_append, List.mem_singleton] at hr
    rcases hr with hr | rfl
    · exact .inl hr
    · exact .inr ⟨rfl, rfl⟩
  have hlt : ∀ x : TxnId, x < s.nextTxnId → x < s.nextTxnId + 1 := fun x hx => hx.trans (Int.lt_succ _)
  refine ⟨?_, ?_, ?_, ?_, ?_⟩
  · intro r hr
    rcases hrec r hr with hr | ⟨hid, -⟩
    · exact hlt _ (h.fresh r hr)
    · rw [hid]
      exact Int.lt_succ _
  · intro c' txn' hc'
    by_cases hcc : c' = c
    · subst hcc
      simp only [setHandler, Function.update_self, Handler.uncommitted, Option.some.injEq] at hc'
      subst hc'
      exact Int.lt_succ _
    · simp only [setHandler, Function.update_of_ne hcc] at hc'
      exact hlt _ (h.mapped c' txn' hc')
  · intro c₁ c₂ txn₁ txn₂ h₁ h₂ hid
    by_cases hc₁ : c₁ = c <;> by_cases hc₂ : c₂ = c
    · rw [hc₁, hc₂]
    · subst hc₁
      simp only [setHandler, Function.update_self, Handler.uncommitted, Option.some.injEq] at h₁
      simp only [setHandler, Function.update_of_ne hc₂] at h₂
      subst h₁
      exact absurd (h.mapped c₂ txn₂ h₂) (by rw [← hid]; exact lt_irrefl _)
    · subst hc₂
      simp only [setHandler, Function.update_self, Handler.uncommitted, Option.some.injEq] at h₂
      simp only [setHandler, Function.update_of_ne hc₁] at h₁
      subst h₂
      exact absurd (h.mapped c₁ txn₁ h₁) (by rw [hid]; exact lt_irrefl _)
    · simp only [setHandler, Function.update_of_ne hc₁] at h₁
      simp only [setHandler, Function.update_of_ne hc₂] at h₂
      exact h.apart c₁ c₂ txn₁ txn₂ h₁ h₂ hid
  · intro c' txn' hc' r hr hid
    rcases hrec r hr with hold | ⟨-, hbody⟩
    · by_cases hcc : c' = c
      · subst hcc
        simp only [setHandler, Function.update_self, Handler.uncommitted, Option.some.injEq] at hc'
        subst hc'
        exact absurd (h.fresh r hold) (by rw [hid]; exact lt_irrefl _)
      · simp only [setHandler, Function.update_of_ne hcc] at hc'
        exact h.uncommitted c' txn' hc' r hold hid
    · rw [hbody]
      rfl
  · intro c'
    by_cases hcc : c' = c
    · subst hcc
      simp only [setHandler, Function.update_self]
      exact fun _ => rfl
    · simp only [setHandler, Function.update_of_ne hcc]
      exact h.settled c'

theorem mem_append {body : LogBody} {r : LogRecord} (hr : r ∈ (s.append txn body).log.records) :
    r ∈ s.log.records ∨ r.logTid = txn.id ∧ r.body = body := by
  rw [append, LogManager.records_addLogToBuffer, List.mem_append, List.mem_singleton] at hr
  rcases hr with hr | rfl
  · exact .inl hr
  · exact .inr ⟨rfl, rfl⟩

/-- A record of a transaction that goes on without a COMMIT record, or ends with one. -/
theorem Inv.append (h : Inv s) {handler : Handler} {body : LogBody}
    (hc : (s.handlers c).uncommitted = some txn) (hbody : body.isCommit = true → handler.uncommitted = none)
    (hsame : ∀ txn', handler.uncommitted = some txn' → txn'.id = txn.id) (hsettled : handler.Settled) :
    Inv ((s.append txn body).setHandler c handler) := by
  refine h.move _ (fun txn' hc' => ⟨hc, hsame txn' hc'⟩) (fun r hr => ?_) hsettled
  rcases mem_append hr with hr | ⟨hid, hb⟩
  · exact .inl hr
  · exact .inr ⟨hc, hid, fun hcommit => hbody (hb ▸ hcommit)⟩

theorem Inv.quiet (h : Inv s) {handler : Handler} {log : LogManager} {acks : List (TxnId × List LogRecord)}
    (hlog : log.records = s.log.records)
    (hsame : ∀ txn', handler.uncommitted = some txn' →
      ∃ txn, (s.handlers c).uncommitted = some txn ∧ txn'.id = txn.id)
    (hsettled : handler.Settled) :
    Inv { s with log := log, handlers := Function.update s.handlers c handler, acks := acks } := by
  cases hu : handler.uncommitted with
  | none =>
      refine h.move ⟨0, 0, false, []⟩ (fun txn' hc' => ?_) (fun r hr => .inl (hlog ▸ hr)) hsettled
      rw [hu] at hc'
      cases hc'
  | some txn' =>
      obtain ⟨txn, hc, hid⟩ := hsame txn' hu
      refine h.move txn (fun txn'' hc' => ?_) (fun r hr => .inl (hlog ▸ hr)) hsettled
      rw [hu] at hc'
      cases hc'
      exact ⟨hc, hid⟩

theorem acknowledge_eq : s.acknowledge txn = { s with acks := (s.acknowledge txn).acks } := by
  rw [acknowledge]
  split <;> rfl

theorem Inv.step (h : Inv s) (hrun : step s a = some s') : Inv s' := by
  rw [ReplyServer.step] at hrun
  have hset := h.settled a.1
  split at hrun
  · cases hrun
    exact h.receive _
  · rename_i txn w hh _
    cases hrun
    refine h.append (by rw [hh]; rfl) (by rintro ⟨⟩) ?_ (fun hne => absurd rfl hne)
    rintro _ ⟨⟩
    rfl
  · rename_i txn hh _
    cases hrun
    refine h.quiet rfl ?_ (fun hne => absurd rfl hne)
    rintro _ ⟨⟩
    exact ⟨txn, by rw [hh]; rfl, rfl⟩
  · rename_i txn hh _
    cases hrun
    refine h.quiet rfl ?_ (by rintro ⟨⟩)
    rintro _ ⟨⟩
    exact ⟨txn, by rw [hh]; rfl, rfl⟩
  · rename_i txn hh _
    cases hrun
    refine h.quiet rfl ?_ (by rintro ⟨⟩)
    rintro _ ⟨⟩
    exact ⟨txn, by rw [hh]; rfl, rfl⟩
  · rename_i txn hh _
    cases hrun
    rw [hh] at hset
    exact h.append (by rw [hh]; rfl) (fun _ => rfl) (by rintro _ ⟨⟩) (fun _ => hset (by rintro ⟨⟩))
  · rename_i txn hh _
    cases hrun
    refine h.append (by rw [hh]; rfl) (by rintro ⟨⟩) ?_ (by rintro ⟨⟩)
    rintro _ ⟨⟩
    rfl
  · rename_i txn hh _
    cases hrun
    refine h.append (by rw [hh]; rfl) (by rintro ⟨⟩) ?_ (by rintro ⟨⟩)
    rintro _ ⟨⟩
    rfl
  · rename_i txn committed hh _
    cases hrun
    rw [hh] at hset
    refine h.quiet LogManager.records_flushLogToDisk ?_ hset
    intro txn' hc'
    cases committed with
    | true => cases hc'
    | false =>
        cases hc'
        exact ⟨txn, by rw [hh]; rfl, rfl⟩
  · rename_i txn committed hh _
    cases hrun
    rw [acknowledge_eq]
    refine h.quiet rfl ?_ trivial
    intro txn' hc'
    cases committed with
    | true => cases hc'
    | false =>
        cases hc'
        exact ⟨txn, by rw [hh]; rfl, rfl⟩
  · cases hrun
    exact h.quiet rfl (by rintro _ ⟨⟩) trivial
  · cases hrun
    exact h.quiet rfl (by rintro _ ⟨⟩) trivial
  · rename_i txn hh _
    cases hrun
    exact h.append (by rw [hh]; rfl) (fun _ => rfl) (by rintro _ ⟨⟩) trivial
  · cases hrun
    exact h.quiet LogManager.records_flushLogToDisk (by rintro _ ⟨⟩) trivial
  · cases hrun

theorem step_quiet (hrun : step s a = some s') (hack : ¬ Acknowledges s a) :
    s'.acks = s.acks ∧ s.log.file <+: s'.log.file := by
  rw [ReplyServer.step] at hrun
  split at hrun
  · cases hrun
    exact ⟨rfl, LogManager.file_prefix_addLogToBuffer⟩
  · cases hrun
    exact ⟨rfl, LogManager.file_prefix_addLogToBuffer⟩
  · cases hrun
    exact ⟨rfl, List.prefix_rfl⟩
  · cases hrun
    exact ⟨rfl, List.prefix_rfl⟩
  · cases hrun
    exact ⟨rfl, List.prefix_rfl⟩
  · cases hrun
    exact ⟨rfl, LogManager.file_prefix_addLogToBuffer⟩
  · cases hrun
    exact ⟨rfl, LogManager.file_prefix_addLogToBuffer⟩
  · cases hrun
    exact ⟨rfl, LogManager.file_prefix_addLogToBuffer⟩
  · cases hrun
    exact ⟨rfl, LogManager.file_prefix_flushLogToDisk⟩
  · rename_i txn committed hh ha
    cases hrun
    have hchanged : ¬ txn.changed = true := fun hc => hack ⟨ha, txn, committed, hh, hc⟩
    rw [acknowledge, if_neg hchanged]
    exact ⟨rfl, List.prefix_rfl⟩
  · cases hrun
    exact ⟨rfl, List.prefix_rfl⟩
  · cases hrun
    exact ⟨rfl, List.prefix_rfl⟩
  · cases hrun
    exact ⟨rfl, LogManager.file_prefix_addLogToBuffer⟩
  · cases hrun
    exact ⟨rfl, LogManager.file_prefix_flushLogToDisk⟩
  · cases hrun

theorem Durable.step (h : Durable s) (hrun : step s a = some s')
    (hack : ¬ Acknowledges s a) : Durable s' := by
  obtain ⟨hacks, hfile⟩ := step_quiet hrun hack
  intro x hx
  rw [hacks] at hx
  obtain ⟨⟨r, hr, hcommit⟩, hall⟩ := h x hx
  exact ⟨⟨r, hfile.subset hr, hcommit⟩, fun r hr => hfile.subset (hall r hr)⟩

/-- The reply is written before the COMMIT record. -/
theorem Acknowledges.not_durable (h : Inv s) (hack : Acknowledges s a) (hrun : step s a = some s') :
    ¬ Durable s' := by
  obtain ⟨ha, txn, committed, hh, hchanged⟩ := hack
  have hopen : committed = false := by
    by_contra hc
    have hset := h.settled a.1
    rw [hh] at hset
    exact absurd (hset (Bool.not_eq_false _ ▸ hc)) (by rw [hchanged]; decide)
  subst hopen
  rw [ReplyServer.step, hh, ha] at hrun
  cases hrun
  intro hd
  rw [acknowledge, if_pos hchanged] at hd
  obtain ⟨⟨r, hr, hid, hcommit⟩, -⟩ := hd (txn.id, txn.records) List.mem_cons_self
  have hno := h.uncommitted a.1 txn (by rw [hh]; rfl) r (List.mem_append_left _ hr) hid
  rw [hno] at hcommit
  cases hcommit

/-- Acknowledged changes are durable in every state exactly when no change is ever acknowledged. -/
theorem durable_iff_acknowledges_nothing (steps : List (Nat × HandlerStep)) :
    Trace.Always step Durable init steps ↔ Trace.Guarded step (fun s a => ¬ Acknowledges s a) init steps := by
  refine Trace.always_iff_guarded_of_enabled (fun s a s' h hrun => Inv.step h hrun)
    (fun s a s' h hd hrun => ?_)
    (fun s a hrun hack => ?_) init_inv nofun
  · exact ⟨fun hd' hack => hack.not_durable h hrun hd', fun hack => hd.step hrun hack⟩
  · obtain ⟨ha, txn, committed, hh, -⟩ := hack
    rw [ReplyServer.step, hh, ha] at hrun
    cases hrun

def acknowledgedInsert : List (Nat × HandlerStep) :=
  [(0, .receive .data), (0, .change ⟨⟨"t", ⟨1, 0⟩⟩, .put [5, 0, 0, 0]⟩), (0, .finish), (0, .reply true)]

/-- Nothing of the insert is in the log file. -/
theorem acknowledgedInsert_not_durable : ¬ Trace.Always step Durable init acknowledgedInsert := by
  intro h
  have hrun : ∃ s, Trace.run step init acknowledgedInsert = some s ∧ s.log.file = [] ∧
    s.acks.map Prod.fst = [0] := ⟨_, rfl, rfl, rfl⟩
  obtain ⟨s, hrun, hfile, hacks⟩ := hrun
  obtain ⟨x, hx, -⟩ := List.mem_map.1 (hacks ▸ List.mem_cons_self : (0 : TxnId) ∈ s.acks.map Prod.fst)
  obtain ⟨⟨r, hr, -⟩, -⟩ := h.last hrun x hx
  rw [hfile] at hr
  cases hr

end ReplyServer

end Rmdb
