import Rmdb.Recovery.IndexSession

namespace Rmdb

open IxManager RecoveryManager Slot

section Log

variable {done run rs log : List LogRecord} {tid : TxnId} {lsn prev prevLsn : Lsn} {loc : Loc}
  {r : LogRecord} {w : Write}

def slotOps (log : List LogRecord) (loc : Loc) : List (Op Bytes) := (slotLog loc log).map Prod.snd

theorem slotOps_append (l l' : List LogRecord) : slotOps (l ++ l') loc = slotOps l loc ++ slotOps l' loc := by
  rw [slotOps, slotLog_append, List.map_append]
  rfl

theorem slotOps_write (h : r.write? = some w) : slotOps [r] loc = if w.loc = loc then [w.op] else [] := by
  by_cases hw : w.loc = loc <;> simp [slotOps, slotLog, h, hw]

theorem slotOps_none (h : r.write? = none) : slotOps [r] loc = [] := by simp [slotOps, slotLog, h]

theorem slotOps_eq_nil (h : ∀ r ∈ log, ∀ w, r.write? = some w → w.loc ≠ loc) : slotOps log loc = [] := by
  rw [slotOps, List.map_eq_nil_iff, List.eq_nil_iff_forall_not_mem]
  intro e he
  obtain ⟨r, hr, w, hw, hloc, -⟩ := mem_slotLog.1 he
  exact h r hr w hw hloc

inductive TxnRun (tid : TxnId) : List LogRecord → Lsn → Prop
  | begin (lsn : Lsn) : TxnRun tid [⟨lsn, tid, invalidLsn, .begin⟩] lsn
  | write {rs : List LogRecord} {prev : Lsn} (h : TxnRun tid rs prev) (lsn : Lsn) (w : Write) :
      TxnRun tid (rs ++ [⟨lsn, tid, prev, .write w⟩]) lsn

def Finished (tid : TxnId) (run : List LogRecord) : Prop :=
  ∃ rs prev lsn, TxnRun tid rs prev ∧ run = rs ++ [⟨lsn, tid, prev, .commit⟩]

theorem TxnRun.record (h : TxnRun tid rs lsn) :
    rs ≠ [] ∧ ∀ r ∈ rs, r.logTid = tid ∧ r.body ≠ .staticCheckpoint := by
  induction h with
  | begin lsn =>
      refine ⟨by simp, fun r hr => ?_⟩
      rw [List.mem_singleton.1 hr]
      exact ⟨rfl, nofun⟩
  | write h lsn w ih =>
      refine ⟨by simp, fun r hr => ?_⟩
      rcases List.mem_append.1 hr with hr | hr
      · exact ih.2 r hr
      · rw [List.mem_singleton.1 hr]
        exact ⟨rfl, nofun⟩

theorem TxnRun.take (h : TxnRun tid rs lsn) (k : Nat) :
    rs.take k = [] ∨ ∃ lsn', TxnRun tid (rs.take k) lsn' := by
  induction h with
  | begin lsn =>
      cases k with
      | zero => exact .inl rfl
      | succ k => exact .inr ⟨lsn, by simpa using TxnRun.begin lsn⟩
  | @write rs prev h lsn w ih =>
      by_cases hk : k ≤ rs.length
      · rw [List.take_append_of_le_length hk]
        exact ih
      · rw [List.take_of_length_le (by rw [List.length_append, List.length_singleton]; omega)]
        exact .inr ⟨lsn, .write h lsn w⟩

/-- What `analyze` knows of the transaction that runs behind transactions that are over. -/
theorem TxnRun.read (h : TxnRun tid rs lsn) (hclosed : ∀ u, (readLog done).undoTxn.lookup u = none)
    (hold : ∀ r ∈ done, r.logTid ≠ tid) :
    (∀ u, (readLog (done ++ rs)).undoTxn.lookup u = if u = tid then some lsn else none) ∧
      tid ∈ (readLog (done ++ rs)).txnList ∧ Linked lsn (recordsOf tid (done ++ rs)).reverse := by
  induction h with
  | begin lsn =>
      have hnone : recordsOf tid done = [] := List.filter_eq_nil_iff.2 fun r hr => by simpa using hold r hr
      rw [readLog_append, recordsOf_append, if_pos rfl, hnone]
      refine ⟨fun u => ?_, List.mem_append_right _ (List.mem_singleton_self tid), rfl, rfl⟩
      change (emplaceTxn _ _ _).lookup u = _
      rw [lookup_emplaceTxn (hclosed _), hclosed u]
  | write h lsn w ih =>
      obtain ⟨hlook, htid, hlink⟩ := ih
      rw [← List.append_assoc, readLog_append, recordsOf_append, if_pos rfl, List.reverse_append]
      refine ⟨fun u => ?_, htid, rfl, hlink⟩
      change (setTxn _ _ _).lookup u = _
      rw [lookup_setTxn, hlook u]
      by_cases hu : u = tid
      · rw [if_pos hu, if_pos hu]
      · rw [if_neg hu, if_neg hu, if_neg hu]

theorem Finished.closed (h : Finished tid run) (hclosed : ∀ u, (readLog done).undoTxn.lookup u = none)
    (hold : ∀ r ∈ done, r.logTid ≠ tid) (u : TxnId) : (readLog (done ++ run)).undoTxn.lookup u = none := by
  obtain ⟨rs, prev, lsn, hrs, rfl⟩ := h
  rw [← List.append_assoc, readLog_append]
  change (eraseTxn _ _).lookup u = none
  rw [lookup_eraseTxn, (hrs.read hclosed hold).1 u]
  by_cases hu : u = tid
  · rw [if_pos hu]
  · rw [if_neg hu, if_neg hu]

theorem Finished.record (h : Finished tid run) : ∀ r ∈ run, r.logTid = tid ∧ r.body ≠ .staticCheckpoint := by
  obtain ⟨rs, prev, lsn, hrs, rfl⟩ := h
  intro r hr
  rcases List.mem_append.1 hr with hr | hr
  · exact hrs.record.2 r hr
  · rw [List.mem_singleton.1 hr]
    exact ⟨rfl, nofun⟩

end Log

def LastTxn (tid : TxnId) (prevLsn : Lsn) (run : List LogRecord) : SqlPhase → Prop
  | .idle | .flushed => run = [] ∨ Finished tid run
  | .running => TxnRun tid run prevLsn
  | .marking =>
      ∃ run₀ lsn, (run₀ = [] ∨ Finished tid run₀) ∧
        run = run₀ ++ [⟨lsn, -1, invalidLsn, .staticCheckpoint⟩]

structure LogOk (phase : SqlPhase) (txn : TxnId) (prevLsn lsn : Lsn) (durable : Nat)
    (log done run : List LogRecord) : Prop where
  split : log = done ++ run
  low : done.length ≤ durable
  high : durable ≤ log.length
  sorted : log.Pairwise fun r r' => r.lsn < r'.lsn
  below : ∀ r ∈ log, 0 ≤ r.lsn ∧ r.lsn < lsn
  next : 0 ≤ lsn
  older : ∀ r ∈ done, r.logTid < txn
  plain : ∀ r ∈ done, r.body ≠ .staticCheckpoint
  closed : ∀ u, (readLog done).undoTxn.lookup u = none
  last : LastTxn txn prevLsn run phase

section LogSteps

variable {phase phase' : SqlPhase} {txn : TxnId} {prevLsn prevLsn' lsn : Lsn} {durable n : Nat}
  {log done run : List LogRecord} {r : LogRecord}

theorem LogOk.empty (hnext : 0 ≤ lsn) : LogOk .idle txn prevLsn lsn 0 [] [] [] where
  split := rfl
  low := le_rfl
  high := le_rfl
  sorted := List.Pairwise.nil
  below := List.forall_mem_nil _
  next := hnext
  older := List.forall_mem_nil _
  plain := List.forall_mem_nil _
  closed _ := rfl
  last := .inl rfl

theorem LogOk.other (h : LogOk phase txn prevLsn lsn durable log done run) : ∀ r ∈ done, r.logTid ≠ txn :=
  fun r hr => (h.older r hr).ne

theorem LogOk.add (h : LogOk phase txn prevLsn lsn durable log done run) (hr : r.lsn = lsn)
    (hlast : LastTxn txn prevLsn' (run ++ [r]) phase') :
    LogOk phase' txn prevLsn' (lsn + 1) durable (log ++ [r]) done (run ++ [r]) := by
  refine ⟨by rw [h.split, List.append_assoc], h.low, ?_, ?_, ?_, h.next.trans (lt_add_one _).le, h.older,
    h.plain, h.closed, hlast⟩
  · rw [List.length_append]
    exact Nat.le_add_right_of_le h.high
  · refine List.pairwise_append.2 ⟨h.sorted, List.pairwise_singleton _ _, fun x hx y hy => ?_⟩
    rw [List.mem_singleton.1 hy, hr]
    exact (h.below x hx).2
  · intro x hx
    rcases List.mem_append.1 hx with hx | hx
    · exact ⟨(h.below x hx).1, (h.below x hx).2.trans (lt_add_one _)⟩
    · rw [List.mem_singleton.1 hx, hr]
      exact ⟨h.next, lt_add_one _⟩

theorem LogOk.finish (h : LogOk .idle txn prevLsn lsn durable log done run) (hd : durable = log.length)
    (prevLsn' : Lsn) :
    LogOk .idle (txn + 1) prevLsn' lsn durable log (done ++ run) [] := by
  have hrun : ∀ r ∈ run, r.logTid = txn ∧ r.body ≠ .staticCheckpoint := by
    rcases h.last with hnil | hfin
    · rw [hnil]
      nofun
    · exact hfin.record
  have hclosed : ∀ u, (readLog (done ++ run)).undoTxn.lookup u = none := by
    rcases h.last with hnil | hfin
    · rw [hnil, List.append_nil]
      exact h.closed
    · exact hfin.closed h.closed h.other
  refine ⟨by rw [h.split, List.append_nil], by rw [hd, h.split], h.high, h.sorted, h.below, h.next, ?_,
    ?_, hclosed, .inl rfl⟩
  all_goals
    intro r hr
    rcases List.mem_append.1 hr with hr | hr
  · exact (h.older r hr).trans (lt_add_one _)
  · rw [(hrun r hr).1]
    exact lt_add_one _
  · exact h.plain r hr
  · exact (hrun r hr).2

theorem LogOk.writeLog (h : LogOk phase txn prevLsn lsn durable log done run) (hlow : durable ≤ n)
    (hhigh : n ≤ log.length) :
    LogOk phase txn prevLsn lsn n log done run :=
  ⟨h.split, h.low.trans hlow, hhigh, h.sorted, h.below, h.next, h.older, h.plain, h.closed, h.last⟩

theorem LogOk.durable_cases (h : LogOk phase txn prevLsn lsn durable log done run)
    (hunmarked : phase = .marking → durable < log.length) :
    log.take durable = done ∨
      (∃ rs lsn', TxnRun txn rs lsn' ∧ rs <+: run ∧ log.take durable = done ++ rs) ∨
      ∃ run₀, Finished txn run₀ ∧ (∀ loc, slotOps run₀ loc = slotOps run loc) ∧
        log.take durable = done ++ run₀ := by
  obtain ⟨k, rfl⟩ := Nat.exists_eq_add_of_le h.low
  have htake : log.take (done.length + k) = done ++ run.take k := by
    rw [h.split, List.take_append, List.take_of_length_le (Nat.le_add_right ..), Nat.add_sub_cancel_left]
  -- a prefix of a run that is over
  have hfinished : ∀ run₀, (run₀ = [] ∨ Finished txn run₀) → run₀ <+: run →
    (∀ loc, slotOps run₀ loc = slotOps run loc) →
      run.take k = run₀.take k → log.take (done.length + k) = done ∨
      (∃ rs lsn', TxnRun txn rs lsn' ∧ rs <+: run ∧ log.take (done.length + k) = done ++ rs) ∨
      ∃ run₀, Finished txn run₀ ∧ (∀ loc, slotOps run₀ loc = slotOps run loc) ∧
      log.take (done.length + k) = done ++ run₀ := by
    intro run₀ hrun₀ hpre hops hk
    rw [htake, hk]
    rcases hrun₀ with rfl | ⟨rs, prev, lsn', hrs, rfl⟩
    · exact .inl (by simp)
    · by_cases hle : k ≤ rs.length
      · rw [List.take_append_of_le_length hle]
        rcases hrs.take k with hnil | ⟨lsn'', hrs'⟩
        · exact .inl (by rw [hnil, List.append_nil])
        · exact .inr (.inl ⟨_, lsn'', hrs',
            (List.take_prefix k rs).trans ((List.prefix_append _ _).trans hpre), rfl⟩)
      · rw [List.take_of_length_le (by rw [List.length_append, List.length_singleton]; omega)]
        exact .inr (.inr ⟨_, ⟨rs, prev, lsn', hrs, rfl⟩, hops, rfl⟩)
  cases phase with
  | idle | flushed => exact hfinished run h.last List.prefix_rfl (fun _ => rfl) rfl
  | running =>
      rcases h.last.take k with hnil | ⟨lsn', hrs⟩
      · exact .inl (by rw [htake, hnil, List.append_nil])
      · exact .inr (.inl ⟨_, lsn', hrs, List.take_prefix k run, htake⟩)
  | marking =>
      obtain ⟨run₀, lsn', hrun₀, rfl⟩ := h.last
      have hk : k ≤ run₀.length := by
        have hlt := hunmarked rfl
        rw [h.split, List.length_append, List.length_append, List.length_singleton] at hlt
        omega
      refine hfinished run₀ hrun₀ (List.prefix_append _ _) (fun loc => ?_) (List.take_append_of_le_length hk)
      rw [slotOps_append, slotOps_none rfl, List.append_nil]

end LogSteps

/-- Where the rows stand against the log: `c` are the rows before the last transaction. Replay of `done` over
any contents of a slot with a record ends below them. -/
structure RowsOk (c rows : Store) (done run : List LogRecord) : Prop where
  settled : ∀ loc, slotOps done loc ≠ [] → ∀ y, Below (redoAll (slotOps done loc) y) (c loc)
  legal : ∀ loc, LegalFrom (c loc) (slotOps run loc)
  rows : ∀ loc, rows loc = redoAll (slotOps run loc) (c loc)

def DiskOk (c disk : Store) (log : List LogRecord) : Prop :=
  ∀ loc, slotOps log loc = [] → Below (disk loc) (c loc)

section Rows

variable {c rows disk : Store} {done run rs log : List LogRecord} {loc : Loc} {txn : TxnId}
  {prevLsn lsn : Lsn} {durable : Nat} {phase : SqlPhase} {order : List (String × Int)}

theorem RowsOk.redo_done (h : RowsOk c rows done run)
    (hdisk : slotOps done loc = [] → Below (disk loc) (c loc)) :
    Below (redoAll (slotOps done loc) (disk loc)) (c loc) := by
  by_cases hnil : slotOps done loc = []
  · rw [hnil]
    exact hdisk hnil
  · exact h.settled loc hnil _

theorem foldl_undo_below {ops : List (Op Bytes)} {v x : Option Bytes} (h : LegalFrom v ops)
    {tids : List TxnId} {tid : TxnId} (htids : ∀ t ∈ tids, t = tid) (hin : tid ∈ tids)
    {log : List (TxnId × Op Bytes)} (hops : opsOf tid log = ops) (hx : ops = [] → Below x v) :
    Below (tids.foldl (fun v t => undoAll (opsOf t log) v) x) v := by
  induction tids generalizing x with
  | nil => cases hin
  | cons t tids ih =>
      obtain rfl : t = tid := htids t List.mem_cons_self
      rw [List.foldl_cons, hops]
      have hstep : Below (undoAll ops x) v := by
        by_cases hnil : ops = []
        · rw [hnil]
          exact hx hnil
        · exact undoAll_below h hnil
      by_cases hmem : t ∈ tids
      · exact ih (fun u hu => htids u (List.mem_cons_of_mem _ hu)) hmem fun _ => hstep
      · have hnil : tids = [] := List.eq_nil_iff_forall_not_mem.2 fun u hu =>
          hmem (htids u (List.mem_cons_of_mem _ hu) ▸ hu)
        rw [hnil]
        exact hstep

theorem opsOf_other (h : ∀ r ∈ log, r.logTid ≠ txn) : opsOf txn (slotLog loc log) = [] := by
  refine opsOf_eq_nil.2 fun e he => ?_
  obtain ⟨r, hr, w, -, -, rfl⟩ := mem_slotLog.1 he
  exact h r hr

theorem opsOf_own (h : ∀ r ∈ log, r.logTid = txn) : opsOf txn (slotLog loc log) = slotOps log loc := by
  rw [opsOf, slotOps, List.filter_eq_self.2]
  intro e he
  obtain ⟨r, hr, w, -, -, rfl⟩ := mem_slotLog.1 he
  simpa using h r hr

theorem undoTxnList_nil {a : RecoveryManager} (h : ∀ u, a.undoTxn.lookup u = none) : a.undoTxnList = [] := by
  rw [undoTxnList, List.reverse_eq_nil_iff, List.filter_eq_nil_iff]
  intro u _
  rw [h u]
  simp

/-- Redo and undo leave in no slot anything but the row that the last transaction found there, or the one it
has committed. -/
theorem recovered_below (hl : LogOk phase txn prevLsn lsn durable log done run) (hr : RowsOk c rows done run)
    (hdisk : DiskOk c disk (log.take durable)) (hunmarked : phase = .marking → durable < log.length)
    (horder : (readLog (log.take durable)).RedoOrder order) : ∃ st b,
      (readLog (log.take durable)).undoAll (readLog (log.take durable)).undoTxnList
        ((readLog (log.take durable)).redo order disk) = .ok st ∧ (∀ loc, Below (st loc) (b loc)) ∧
          (b = c ∨ b = rows) := by
  have hrecs : (readLog (log.take durable)).logRecords = log.take durable :=
    logRecords_sorted (hl.sorted.sublist (List.take_sublist _ _))
  have hredo : ∀ loc, (readLog (log.take durable)).redo order disk loc =
      redoAll (slotOps (log.take durable) loc) (disk loc) := by
    intro loc
    rw [redo_slot horder, hrecs]
    rfl
  rcases hl.durable_cases hunmarked with hP | ⟨rs, lsn', hrs, hpre, hP⟩ | ⟨run₀, hfin, hops, hP⟩
  · -- the last transaction has no record in the file
    refine ⟨(readLog (log.take durable)).redo order disk, c, ?_, fun loc => ?_, .inl rfl⟩
    · rw [undoTxnList_nil fun u => by rw [hP]; exact hl.closed u]
      rfl
    · rw [hredo, hP]
      exact hr.redo_done fun hnil => hdisk loc (by rw [hP]; exact hnil)
  · -- it has begun, and is undone
    obtain ⟨hlook, htid, hlink⟩ := hrs.read hl.closed hl.other
    rw [← hP] at hlook htid hlink
    have hmem : ∀ t, t ∈ (readLog (log.take durable)).undoTxnList ↔
        t ∈ (readLog (log.take durable)).txnList ∧ t = txn := by
      intro t
      rw [undoTxnList, List.mem_reverse, List.mem_filter, hlook t]
      by_cases ht : t = txn <;> simp [ht]
    refine ⟨_, c, undoAll_linked (by rw [hrecs]; exact hl.sorted.sublist (List.take_sublist _ _)) ?_
      ?_, fun loc => ?_, .inl rfl⟩
    · intro r hr hc
      rw [hrecs] at hr
      have := (hl.below r (List.mem_of_mem_take hr)).1
      rw [hc] at this
      exact absurd this (by decide)
    · intro t ht
      obtain rfl := ((hmem t).1 ht).2
      refine ⟨lsn', by rw [hlook, if_pos rfl], ?_⟩
      rw [hrecs]
      exact hlink
    · rw [hrecs, undo_slot, hredo]
      obtain ⟨rest, hrest⟩ := hpre
      have hlegal : LegalFrom (c loc) (slotOps rs loc) := by
        have := hr.legal loc
        rw [← hrest, slotOps_append] at this
        exact (legalFrom_append.1 this).1
      have hown : opsOf txn (slotLog loc (log.take durable)) = slotOps rs loc := by
        rw [hP, slotLog_append, opsOf_append, opsOf_other hl.other, List.nil_append,
          opsOf_own fun r hr => (hrs.record.2 r hr).1]
      refine foldl_undo_below hlegal (fun t ht => ((hmem t).1 ht).2)
        ((hmem txn).2 ⟨htid, rfl⟩) hown fun hnil => ?_
      have hP' : slotOps (log.take durable) loc = slotOps done loc := by
        rw [hP, slotOps_append, hnil, List.append_nil]
      rw [hP']
      exact hr.redo_done fun hdone => hdisk loc (hP'.trans hdone)
  · -- it is over
    refine ⟨(readLog (log.take durable)).redo order disk, rows, ?_, fun loc => ?_, .inr rfl⟩
    · rw [undoTxnList_nil fun u => by rw [hP]; exact hfin.closed hl.closed hl.other u]
      rfl
    · rw [hredo, hr.rows loc]
      have hP' : slotOps (log.take durable) loc = slotOps done loc ++ slotOps run loc := by
        rw [hP, slotOps_append, hops]
      by_cases hnil : slotOps run loc = []
      · rw [hnil, List.append_nil] at hP'
        rw [hP', hnil]
        exact hr.redo_done fun hdone => hdisk loc (hP'.trans hdone)
      · rw [hP', redoAll_append]
        exact redoAll_below (hr.legal loc) hnil

theorem RowsOk.bound (h : RowsOk c rows done run) (hne : slotOps (done ++ run) loc ≠ []) (y : Option Bytes) :
    Below (redoAll (slotOps (done ++ run) loc) y) (rows loc) := by
  rw [slotOps_append] at hne ⊢
  rw [h.rows loc]
  by_cases hnil : slotOps run loc = []
  · rw [hnil, List.append_nil] at hne ⊢
    exact h.settled loc hne y
  · rw [redoAll_append]
    exact redoAll_below (h.legal loc) hnil

theorem RowsOk.finish (h : RowsOk c rows done run) : RowsOk rows rows (done ++ run) [] :=
  ⟨fun _ hne y => h.bound hne y, fun _ => trivial, fun _ => rfl⟩

theorem RowsOk.add {r : LogRecord} (h : RowsOk c rows done run) (hr : r.write? = none) :
    RowsOk c rows done (run ++ [r]) := by
  have hops : ∀ loc, slotOps (run ++ [r]) loc = slotOps run loc := fun loc => by
    rw [slotOps_append, slotOps_none hr, List.append_nil]
  refine ⟨h.settled, fun loc => ?_, fun loc => ?_⟩
  · rw [hops]
    exact h.legal loc
  · rw [hops]
    exact h.rows loc

theorem RowsOk.write {r : LogRecord} {w : Write} (h : RowsOk c rows done run) (hr : r.write? = some w)
    (hw : w.op.Legal (rows w.loc)) : RowsOk c (w.redo rows) done (run ++ [r]) := by
  refine ⟨h.settled, fun loc => ?_, fun loc => ?_⟩
  all_goals rw [slotOps_append, slotOps_write hr]
  · by_cases hloc : w.loc = loc
    · subst hloc
      rw [if_pos rfl, legalFrom_snoc, ← h.rows]
      exact ⟨h.legal _, hw⟩
    · rw [if_neg hloc, List.append_nil]
      exact h.legal loc
  · rw [Write.redo_eq]
    by_cases hloc : w.loc = loc
    · subst hloc
      rw [if_pos rfl, redoAll_append, ← h.rows, Function.update_self]
      rfl
    · rw [if_neg hloc, List.append_nil, Function.update_of_ne (Ne.symm hloc)]
      exact h.rows loc

theorem RowsOk.start_eq (h : RowsOk c rows done run) (hnone : ∀ loc, slotOps run loc = []) : c = rows := by
  funext loc
  rw [h.rows loc, hnone loc]
  rfl

theorem RowsOk.rebase {rows' : Store} (h : RowsOk c rows done run) (hnone : ∀ loc, slotOps run loc = [])
    (hrows : ∀ loc, slotOps done loc ≠ [] → Below (rows loc) (rows' loc)) : RowsOk rows' rows' done run := by
  refine ⟨fun loc hne y => ?_, fun loc => ?_, fun loc => ?_⟩
  · have hold := h.settled loc hne y
    rw [h.start_eq hnone] at hold
    exact hold.trans (hrows loc hne)
  · rw [hnone loc]
    trivial
  · rw [hnone loc]
    rfl

end Rows

namespace IndexSession

variable (s : IndexSession)

/-- Not between the moment the checkpoint record is in the log file and the moment the restart offset is. -/
def Unmarked : Prop := s.phase = .marking → s.durable < s.log.length

/-- The header names the root and the ends of the leaf list of the tree, or the leaf that an
emptied tree has left. -/
def Serves {K : Type} (hdr : IxFileHdr) (ih : IxIndexHandle K) : Prop :=
  hdr.firstLeaf = ih.fileHdr.firstLeaf ∧ hdr.lastLeaf = ih.fileHdr.lastLeaf ∧
    (hdr.rootPage = ih.fileHdr.rootPage ∨
      ih.fileHdr.rootPage = -1 ∧ hdr.rootPage = ih.fileHdr.lastLeaf ∧
        ∃ node, ih.pages ih.fileHdr.lastLeaf = some node ∧ node.isLeaf = true)

def LogsNothing : Prop := ∀ r ∈ s.log, r.logTid = s.txn → r.write? = none

/-- At each checkpoint the headers on disk serve the trees. While no record behind the checkpoint
is in the log file, nothing that has changed since is written to disk, and no index is created
over rows; a page of rows is written behind the records of its changes. LOAD and CREATE INDEX run
in a transaction that has logged no change and meet no key twice, and DROP TABLE finds no record
of the table in the log. -/
def Keeps : IndexStep → Prop
  | .load t rows => s.LogsNothing ∧ ∀ s', load t rows s = some s' → UniqueKeys s'.cat t s'.rows
  | .createIndex ix => s.LogsNothing ∧
      (∀ r r' row row', s.rows ⟨ix.tabName, r⟩ = some row → s.rows ⟨ix.tabName, r'⟩ = some row' →
        ix.key row = ix.key row' → r = r') ∧
      (s.checkpointed = true → s.durable = 0 → ∀ r, s.rows ⟨ix.tabName, r⟩ = none)
  | .dropTable t => ∀ r ∈ s.log, ∀ w, r.write? = some w → w.loc.table ≠ t
  | .writePage page => s.checkpointed = true →
      (∀ r ∈ s.log.drop s.durable, ∀ w, r.write? = some w → w.loc.page ≠ page) ∧
      (s.durable = 0 → ∀ loc, loc.page = page → s.rows loc = s.disk loc)
  | .writeNode ix p half => s.checkpointed = true → s.durable = 0 → s.frame ix p half = s.nodes ix p
  | .setRestartLog => ∀ t, ∀ ix ∈ s.indexes t, Serves (s.hdrs ix) (s.ihs ix)
  | _ => True

structure Inv (c : Store) (done run : List LogRecord) : Prop where
  log : LogOk s.phase s.txn s.prevLsn s.lsn s.durable s.log done run
  placed : ∀ r ∈ s.log, ∀ w, r.write? = some w → w.loc.table ∈ s.tables ∧ w.loc.rid ∈ (s.slots w.loc.table).1
  rows : RowsOk c s.rows done run
  disk : s.checkpointed = true → DiskOk c s.disk s.durableLog
  cover : ∀ loc, c loc ≠ none ∨ s.rows loc ≠ none → loc.rid ∈ (s.slots loc.table).1
  trees : TreesOk s.indexes s.ihs s.rows
  unique : ∀ t, UniqueKeys s.cat t c
  header : ∀ ix, s.hdrs ix = (IxManager.createIndex ix.layout).fileHdr
  quiet : s.checkpointed = true → s.durable = 0 → ∀ t, ∀ ix ∈ s.indexes t,
    HoldsExactly (s.opened ix) ix.key fun r => s.disk ⟨t, r⟩
  synced : s.phase = .flushed ∨ s.phase = .marking → s.disk = s.rows ∧ ∀ ix, s.nodes ix = (s.ihs ix).pages

variable {s}

theorem uniqueKeys_iff {c : Store} {t : String} : UniqueKeys s.cat t c ↔ ∀ ix ∈ s.indexes t, ∀ r r' row row',
    c ⟨t, r⟩ = some row → c ⟨t, r'⟩ = some row' → ix.key row = ix.key row' → r = r' := by
  constructor
  · intro h ix hix r r' row row' hr hr' hkey
    exact h ix.entryKey (List.mem_map_of_mem hix) r r' row row' hr hr' (IndexMeta.entryKey_inj.2 hkey)
  · intro h key hkey r r' row row' hr hr' heq
    obtain ⟨ix, hix, rfl⟩ := List.mem_map.1 hkey
    exact h ix hix r r' row row' hr hr' (IndexMeta.entryKey_inj.1 heq)

theorem uniqueKeys_of_trees (h : TreesOk s.indexes s.ihs s.rows) (t : String) : UniqueKeys s.cat t s.rows :=
  uniqueKeys_iff.2 fun ix hix _ _ _ _ hr hr' hkey => (h.tree t ix hix).unique hr hr' hkey

theorem uniqueKeys_below {b st : Store} {t : String} (h : UniqueKeys s.cat t b)
    (hst : ∀ loc, Below (st loc) (b loc)) :
    UniqueKeys s.cat t st := by
  have hsub : ∀ loc row, st loc = some row → b loc = some row := by
    intro loc row hrow
    rcases hst loc with hnone | heq
    · rw [hnone] at hrow
      cases hrow
    · rw [← heq]
      exact hrow
  exact fun key hkey r r' row row' hr hr' => h key hkey r r' row row' (hsub _ _ hr) (hsub _ _ hr')

section Restart

variable {c : Store} {done run : List LogRecord}

theorem Inv.durable_plain (h : Inv s c done run) (hu : s.Unmarked) :
    ∀ r ∈ s.durableLog, r.body ≠ .staticCheckpoint := by
  intro r hr
  rw [durableLog] at hr
  rcases h.log.durable_cases hu with hP | ⟨rs, lsn', hrs, -, hP⟩ | ⟨run₀, hfin, -, hP⟩
  · rw [hP] at hr
    exact h.log.plain r hr
  · rw [hP] at hr
    exact (List.mem_append.1 hr).elim (h.log.plain r) fun hr => (hrs.record.2 r hr).2
  · rw [hP] at hr
    exact (List.mem_append.1 hr).elim (h.log.plain r) fun hr => (hfin.record r hr).2

/-- A crash in a state of the invariant: either no transaction record is found and the files agree, or the
indexes are built again over rows whose keys are unique. -/
theorem Inv.indexesExact (h : Inv s c done run) (hc : s.checkpointed = true) (hu : s.Unmarked) :
    s.IndexesExact := by
  intro order horder
  have hplain := h.durable_plain hu
  have hrecs : (readLog s.durableLog).logRecords = s.durableLog :=
    logRecords_sorted (h.log.sorted.sublist (List.take_sublist _ _))
  have hplaced : ∀ r ∈ s.durableLog, ∀ w, r.write? = some w → w.loc.table ∈ s.tables ∧
      w.loc.rid ∈ (s.slots w.loc.table).1 :=
    fun r hr => h.placed r (List.mem_of_mem_take hr)
  have hanalyze : analyze s.cat s.durableLog = .ok (readLog s.durableLog) := by
    have htables : checkTables s.cat s.durableLog = .ok () := checkTables_ok fun r hr =>
      ⟨fun w hw => (hplaced r hr w (by rw [LogRecord.write?, hw])).1, hplain r hr⟩
    rw [analyze, hrecs, htables]
    rfl
  have hpages : ((readLog s.durableLog).logRecords.filterMap LogRecord.write?).find?
      (fun w => w.loc.rid ∉ s.cat.slots w.loc.table) = none := by
    rw [List.find?_eq_none, hrecs]
    intro w hw
    obtain ⟨r, hr, hw⟩ := List.mem_filterMap.1 hw
    have hslot : w.loc.rid ∈ s.cat.slots w.loc.table := (hplaced r hr w hw).2
    simpa using hslot
  obtain ⟨st, b, hundo, hbelow, hb⟩ := recovered_below h.log h.rows (h.disk hc) hu horder
  change (readLog s.durableLog).undoAll (readLog s.durableLog).undoTxnList
    ((readLog s.durableLog).redo order s.disk) =
    .ok st at hundo
  have hopened : (readLog s.durableLog).redoTxn = [] ∧ (readLog s.durableLog).undoTxn = [] →
      s.restart order = .ok (st, s.opened) := by
    intro hnone
    rw [restart, hanalyze]
    simp only [hpages, hundo, if_pos hnone]
  have hrebuilt : ¬ ((readLog s.durableLog).redoTxn = [] ∧ (readLog s.durableLog).undoTxn = []) →
      ∀ ihs, rebuildTables s.cat.slots s.indexes s.tables s.opened st = .ok (ihs, st) →
      s.restart order = .ok (st, ihs) := by
    intro hsome ihs hrebuild
    rw [restart, hanalyze]
    simp only [hpages, hundo, if_neg hsome, hrebuild]
  by_cases hzero : s.durable = 0
  · -- nothing is redone or undone, and nothing rebuilt
    have hnil : s.durableLog = [] := by rw [durableLog, hzero, List.take_zero]
    have hst : st = s.disk := by
      rw [hnil] at hundo horder
      have heq : (readLog []).redo order s.disk = st := Except.ok.inj hundo
      rw [← heq]
      funext loc
      rw [redo_slot horder]
      rfl
    refine ⟨st, s.opened, hopened (by rw [hnil]; exact ⟨rfl, rfl⟩), fun t _ ix hix => ?_⟩
    rw [hst]
    exact h.quiet hc hzero t ix hix
  · have hne : s.durableLog ≠ [] := by
      intro hnil
      have hlen := congrArg List.length hnil
      rw [durableLog, List.length_take, List.length_nil] at hlen
      have := h.log.high
      omega
    have hunique : ∀ t, UniqueKeys s.cat t st := by
      intro t
      rcases hb with rfl | rfl
      · exact uniqueKeys_below (h.unique t) hbelow
      · exact uniqueKeys_below (uniqueKeys_of_trees h.trees t) hbelow
    have hcover : ∀ t r, st ⟨t, r⟩ ≠ none → r ∈ s.cat.slots t := by
      intro t r hr
      refine h.cover ⟨t, r⟩ ?_
      have hbr : b ⟨t, r⟩ ≠ none := by
        rcases hbelow ⟨t, r⟩ with hnone | heq
        · exact absurd hnone hr
        · rw [← heq]
          exact hr
      rcases hb with rfl | rfl
      · exact .inl hbr
      · exact .inr hbr
    obtain ⟨ihs, hrebuild, hall, -⟩ := rebuildTables_built rfl
      (fun _ => rfl) h.trees.tab hcover hunique s.tables
    refine ⟨st, ihs, hrebuilt (rebuilds_of_ne_nil hne hplain) ihs hrebuild, fun t ht ix hix => ?_⟩
    · have hbuilt := hall t ht ix hix
      rw [Built, h.trees.tab t ix hix] at hbuilt
      exact hbuilt.holdsExactly

end Restart

section Steps

variable {s' : IndexSession} {c : Store} {done run : List LogRecord} {t : String} {r : LogRecord}

theorem inv_start : Inv start (fun _ => none) [] [] where
  log := .empty le_rfl
  placed := List.forall_mem_nil _
  rows := ⟨fun _ hne => absurd rfl hne, fun _ => trivial, fun _ => rfl⟩
  disk := nofun
  cover _ hne := hne.elim (absurd rfl) (absurd rfl)
  trees := ⟨nofun, fun _ => List.nodup_nil, nofun⟩
  unique _ _ _ _ _ _ _ hr := nomatch hr
  header _ := rfl
  quiet := nofun
  synced h := by rcases h with h | h <;> cases h

theorem durableLog_append (h : s.durable ≤ s.log.length) (l : List LogRecord) :
    (s.log ++ l).take s.durable = s.durableLog := List.take_append_of_le_length h

theorem Inv.rows_eq (h : Inv s c done run) {loc : Loc} (hnil : slotOps s.log loc = []) :
    s.rows loc = c loc := by
  rw [h.log.split, slotOps_append, List.append_eq_nil_iff] at hnil
  rw [h.rows.rows loc, hnil.2]
  rfl

theorem Inv.begin (h : Inv s c done run) (hphase : s.phase = .idle) (hd : s.durable = s.log.length) :
    Inv ({ s with phase := .running, txn := s.txn + 1, prevLsn := invalidLsn }.addLog .begin)
      s.rows (done ++ run)
      [⟨s.lsn, s.txn + 1, invalidLsn, .begin⟩] := by
  have hlog := h.log
  rw [hphase] at hlog
  refine ⟨(hlog.finish hd invalidLsn).add rfl (.begin _), fun r hr w hw => ?_,
    h.rows.finish.add rfl, fun hc loc hnil => ?_,
    fun loc hloc => h.cover loc (.inr (or_self_iff.1 hloc)), h.trees, uniqueKeys_of_trees h.trees,
    h.header, h.quiet,
    fun hp => by rcases hp with hp | hp <;> cases hp⟩
  · rcases List.mem_append.1 hr with hr | hr
    · exact h.placed r hr w hw
    · rw [List.mem_singleton.1 hr] at hw
      cases hw
  · have hnil' : slotOps s.durableLog loc = [] := by
      rw [← durableLog_append h.log.high]
      exact hnil
    have hall : s.durableLog = s.log := List.take_of_length_le hd.ge
    have hbelow := h.disk hc loc hnil'
    rw [hall] at hnil'
    rwa [h.rows_eq hnil']

theorem Inv.add {phase : SqlPhase} {prevLsn : Lsn} (h : Inv s c done run) (hr : r.lsn = s.lsn)
    (hw : r.write? = none) (hlast : LastTxn s.txn prevLsn (run ++ [r]) phase)
    (hsynced : phase = .flushed ∨ phase = .marking → s.phase = .flushed ∨ s.phase = .marking) :
    Inv { s with phase := phase, log := s.log ++ [r], lsn := s.lsn + 1, prevLsn := prevLsn } c done
      (run ++ [r]) := by
  refine ⟨h.log.add hr hlast, fun x hx w hxw => ?_, h.rows.add hw, fun hc => ?_, h.cover, h.trees,
    h.unique, h.header, h.quiet, fun hp => h.synced (hsynced hp)⟩
  · rcases List.mem_append.1 hx with hx | hx
    · exact h.placed x hx w hxw
    · rw [List.mem_singleton.1 hx, hw] at hxw
      cases hxw
  · change DiskOk c s.disk ((s.log ++ [r]).take s.durable)
    rw [durableLog_append h.log.high]
    exact h.disk hc

theorem Inv.commit (h : Inv s c done run) (hphase : s.phase = .running) :
    ∃ run', Inv { s.addLog .commit with phase := .idle } c done run' := by
  have hlog := h.log
  rw [hphase] at hlog
  exact ⟨_, h.add (r := ⟨s.lsn, s.txn, s.prevLsn, .commit⟩) rfl rfl
    (.inr ⟨run, s.prevLsn, s.lsn, hlog.last, rfl⟩)
    fun hp => by rcases hp with hp | hp <;> cases hp⟩

theorem Inv.writeLog {n : Nat} (h : Inv s c done run) (hlow : s.durable ≤ n) (hhigh : n ≤ s.log.length) :
    Inv { s with durable := n } c done run := by
  refine ⟨h.log.writeLog hlow hhigh, h.placed, h.rows, fun hc loc hnil => h.disk hc loc ?_, h.cover,
    h.trees, h.unique, h.header, fun hc hn => h.quiet hc (Nat.le_zero.1 (hlow.trans hn.le)), h.synced⟩
  obtain ⟨rest, hrest⟩ : s.durableLog <+: s.log.take n := List.take_prefix_take_left hlow
  have hops : slotOps (s.log.take n) loc = [] := hnil
  rw [← hrest, slotOps_append, List.append_eq_nil_iff] at hops
  exact hops.1

theorem Inv.writePage {page : String × Int} (h : Inv s c done run) (hk : s.Keeps (.writePage page)) :
    Inv (s.writePage page) c done run := by
  have hsame : s.checkpointed = true → s.durable = 0 → (s.writePage page).disk = s.disk := by
    intro hc hzero
    funext loc
    change (if loc.page = page then s.rows loc else s.disk loc) = s.disk loc
    split
    · rename_i hpage
      exact (hk hc).2 hzero loc hpage
    · rfl
  refine ⟨h.log, h.placed, h.rows, fun hc loc hnil => ?_, h.cover, h.trees, h.unique,
    h.header, fun hc hzero t ix hix => ?_,
    fun hp => ⟨?_, (h.synced hp).2⟩⟩
  · change Below (if loc.page = page then s.rows loc else s.disk loc) (c loc)
    split
    · rename_i hpage
      have hrest : slotOps (s.log.drop s.durable) loc = [] :=
        slotOps_eq_nil fun r hr w hw hloc => (hk hc).1 r hr w hw (by rw [hloc, hpage])
      have hnil' : slotOps s.durableLog loc = [] := hnil
      refine .inr (h.rows_eq ?_)
      rw [← List.take_append_drop s.durable s.log, slotOps_append, hrest, List.append_nil]
      exact hnil'
    · exact h.disk hc loc hnil
  · rw [hsame hc hzero]
    exact h.quiet hc hzero t ix hix
  · funext loc
    change (if loc.page = page then s.rows loc else s.disk loc) = s.rows loc
    rw [(h.synced hp).1, ite_self]

theorem Inv.writeNode {ix : IndexMeta} {p : Int} {half : Option (IxNode (Key ix.layout))}
    (h : Inv s c done run) (hk : s.Keeps (.writeNode ix p half)) :
    Inv (s.writeNode ix p half) c done run := by
  have hsame : s.frame ix p half = s.nodes ix p → (s.writeNode ix p half).nodes = s.nodes := by
    intro hframe
    change Function.update s.nodes ix (Function.update (s.nodes ix) p (s.frame ix p half)) = s.nodes
    rw [hframe, Function.update_eq_self, Function.update_eq_self]
  refine ⟨h.log, h.placed, h.rows, h.disk, h.cover, h.trees, h.unique,
    h.header, fun hc hzero t jx hjx => ?_, fun hp => ?_⟩
  · have hopened : (s.writeNode ix p half).opened jx = s.opened jx := by
      rw [opened, opened, hsame (hk hc hzero)]
      rfl
    rw [hopened]
    exact h.quiet hc hzero t jx hjx
  · obtain ⟨hdisk, hnodes⟩ := h.synced hp
    have hframe : s.frame ix p half = s.nodes ix p := by
      have hphase : s.phase ≠ .running :=
        by rcases hp with hp | hp <;> exact fun hc => by cases hp.symm.trans hc
      rw [frame, if_neg hphase, hnodes ix]
    rw [hsame hframe]
    exact ⟨hdisk, hnodes⟩

theorem Inv.flushAllPages (h : Inv s c done run) (hphase : s.phase = .idle) (hd : s.durable = s.log.length)
    (hpos : 0 < s.durable) : Inv s.flushAllPages c done run := by
  have hlog := h.log
  rw [hphase] at hlog
  refine ⟨⟨hlog.split, hlog.low, hlog.high, hlog.sorted, hlog.below, hlog.next, hlog.older, hlog.plain,
    hlog.closed, hlog.last⟩, h.placed,
    h.rows, fun _ loc hnil => .inr (h.rows_eq ?_), h.cover, h.trees, h.unique, h.header,
    fun _ hzero => absurd hzero hpos.ne', fun _ => ⟨rfl, fun _ => rfl⟩⟩
  have hall : s.log.take s.durable = s.log := List.take_of_length_le hd.ge
  rw [← hall]
  exact hnil

theorem Inv.staticCheckpoint (h : Inv s c done run) (hphase : s.phase = .flushed) :
    ∃ run', Inv { s with
      phase := .marking, log := s.log ++ [⟨s.lsn, -1, invalidLsn, .staticCheckpoint⟩], lsn := s.lsn + 1 }
      c done run' := by
  have hlog := h.log
  rw [hphase] at hlog
  exact ⟨_, h.add (r := ⟨s.lsn, -1, invalidLsn, .staticCheckpoint⟩) rfl rfl
    ⟨run, s.lsn, hlog.last, rfl⟩ fun _ => .inl hphase⟩

/-- A header that serves the tree opens it as it is. -/
theorem holdsExactly_of_serves {ix : IndexMeta} {ih : ix.Handle} {hdr : IxFileHdr} {L : Rid → Option Bytes}
    (h : Indexed ih ix.key L) (hserves : Serves hdr ih) (hroot : hdr.rootPage ≠ -1) (n : Nat) :
    HoldsExactly (⟨hdr, ih.pages, n⟩ : ix.Handle) ix.key L := by
  obtain ⟨hfirst, hlast, hcases⟩ := hserves
  rcases h with h | ⟨h, hnone⟩
  · obtain ⟨m, hreads, hm⟩ := h.holdsExactly
    rcases hcases with hsame | ⟨hno, -⟩
    · exact ⟨m, hreads.congr rfl hsame hfirst hlast, hm⟩
    · -- the tree of the rows has a root
      obtain ⟨fuel, p, node, hdescend, -⟩ := hreads.search IxKey.zero
      rw [hno] at hdescend
      cases fuel with
      | zero => cases hdescend
      | succ fuel =>
          rw [IxIndexHandle.descend, IxIndexHandle.fetchNode, show ih.pages (-1) = none from h.1] at hdescend
          cases hdescend
  · rcases hcases with hsame | ⟨-, hleaf, node, hnode, hisLeaf⟩
    · exact absurd (hsame.trans h.root) hroot
    · refine ⟨IxMap.empty, ⟨h.scan.congr rfl hfirst hlast, fun k => ?_⟩, by simp [Holds, IxMap.empty, hnone]⟩
      have hempty : node.pairs = [] := by
        obtain ⟨end_, es, hend, hscan, -, hes⟩ := h.scan
        have hnil : es = [] := List.eq_nil_iff_forall_not_mem.2 fun e he => by cases (hes e.1 e.2).1 he
        have hfrom := hscan 0 (by rw [hnil]; exact le_rfl)
        rw [IxIndexHandle.scanFrom] at hfrom
        split at hfrom
        · rename_i hbegin
          rw [IxIndexHandle.leafEnd, IxIndexHandle.fetchNode, hnode] at hend
          cases hend
          exact List.eq_nil_of_length_eq_zero (congrArg Iid.slotNo hbegin).symm
        · cases hfrom
      refine ⟨1, ih.fileHdr.lastLeaf, node, ?_,
        hnode, fun r => by rw [hempty]; exact ⟨by rintro ⟨⟩, by rintro ⟨⟩⟩⟩
      have hfetch : IxIndexHandle.fetchNode (⟨hdr, ih.pages, n⟩ : ix.Handle) ih.fileHdr.lastLeaf = .ok node :=
        fetchNode_eq hnode
      rw [hleaf, IxIndexHandle.descend, hfetch, ok_bind, if_pos hisLeaf]

theorem Inv.setRestartLog (h : Inv s c done run) (hphase : s.phase = .marking) (hk : s.Keeps .setRestartLog) :
    Inv { s with phase := .idle, log := [], durable := 0, checkpointed := true } s.rows [] [] := by
  obtain ⟨hdisk, hnodes⟩ := h.synced (.inr hphase)
  refine ⟨.empty h.log.next, List.forall_mem_nil _,
    ⟨fun _ hne => absurd rfl hne, fun _ => trivial, fun _ => rfl⟩, fun _ loc _ => .inr (by rw [← hdisk]),
    fun loc hloc => h.cover loc (.inr (or_self_iff.1 hloc)), h.trees, uniqueKeys_of_trees h.trees, h.header,
    fun _ _ t ix hix => ?_, fun hp => by rcases hp with hp | hp <;> cases hp⟩
  have hexact := holdsExactly_of_serves (h.trees.tree t ix hix) (hk t ix hix)
    (by rw [h.header ix]; exact (by decide : (2 : Int) ≠ -1)) 1
  rw [← hnodes ix, ← hdisk] at hexact
  exact hexact

end Steps

section Statements

variable {s' : IndexSession} {c : Store} {done run : List LogRecord} {t : String} {rid : Rid}
  {grown : List Rid}

theorem grow_spec (h : s.grow t grown = some s') :
    ∃ slots, s' = { s with slots := slots } ∧ ∀ u, ∀ r ∈ (s.slots u).1, r ∈ (slots u).1 := by
  rw [grow] at h
  split at h
  · rename_i hnd
    cases h
    refine ⟨_, rfl, fun u r hr => ?_⟩
    by_cases hu : u = t
    · rw [hu, Function.update_self]
      rw [hu] at hr
      exact List.mem_append_left _ hr
    · rw [Function.update_of_ne hu]
      exact hr
  · cases h

/-- What a change does to the rows is the redo of its record, and the indexes follow. -/
theorem change_spec {a : RowChange} {op : Op Bytes} (h : s.change t a = some (op, s')) : ∃ slots ihs,
    s' = { s with slots := slots, rows := Write.redo ⟨⟨t, a.rid⟩, op⟩ s.rows, ihs := ihs } ∧
      (∀ u, ∀ r ∈ (s.slots u).1, r ∈ (slots u).1) ∧ op.Legal (s.rows ⟨t, a.rid⟩) ∧
      (a.rid ∈ (slots t).1 ∨ s.rows ⟨t, a.rid⟩ ≠ none) ∧
      (TreesOk s.indexes s.ihs s.rows → TreesOk s.indexes ihs (Write.redo ⟨⟨t, a.rid⟩, op⟩ s.rows)) := by
  cases a with
  | insert rid v grown =>
      obtain ⟨s₁, hgrow, h⟩ := Option.bind_eq_some_iff.1 h
      obtain ⟨slots, rfl, hslots⟩ := grow_spec hgrow
      split at h
      · rename_i hok
        obtain ⟨ihs, hrun, h⟩ := Option.map_eq_some_iff.1 h
        cases h
        refine ⟨slots, ihs, rfl, hslots, hok.2, .inl hok.1, fun htrees => ?_⟩
        exact htrees.update (fun ix _ ih ih' hih hf => hih.insertUnique hok.2 hf) hrun
      · cases h
  | delete rid =>
      obtain ⟨old, hold, h⟩ := Option.bind_eq_some_iff.1 h
      obtain ⟨ihs, hrun, h⟩ := Option.map_eq_some_iff.1 h
      cases h
      refine ⟨s.slots, ihs, rfl, fun _ _ hr => hr, hold,
        .inr (by rw [RowChange.rid, hold]; simp), fun htrees => ?_⟩
      exact htrees.update (fun ix _ ih ih' hih hf => hih.deleteOld hold hf) hrun
  | update rid v =>
      obtain ⟨old, hold, h⟩ := Option.bind_eq_some_iff.1 h
      obtain ⟨ihs, hrun, h⟩ := Option.map_eq_some_iff.1 h
      cases h
      refine ⟨s.slots, ihs, rfl, fun _ _ hr => hr, hold,
        .inr (by rw [RowChange.rid, hold]; simp), fun htrees => ?_⟩
      have hredo : Write.redo ⟨⟨t, rid⟩, .set old v⟩ s.rows = Function.update s.rows ⟨t, rid⟩ (some v) := by
        rw [Write.redo_eq]
        change Function.update s.rows ⟨t, rid⟩ ((s.rows ⟨t, rid⟩).map fun _ => v) = _
        rw [hold]
        rfl
      rw [RowChange.rid, hredo]
      exact htrees.update (fun ix _ ih ih' hih hf => hih.moveEntry hold hf) hrun

theorem Inv.change {a : RowChange} {op : Op Bytes} (h : Inv s c done run) (hphase : s.phase = .running)
    (ht : t ∈ s.tables) (hchange : s.change t a = some (op, s')) :
    ∃ run', Inv (s'.addLog (.write ⟨⟨t, a.rid⟩, op⟩)) c done run' := by
  obtain ⟨slots, ihs, rfl, hslots, hlegal, hrid, htrees⟩ := change_spec hchange
  have hlog := h.log
  rw [hphase] at hlog
  have hin : a.rid ∈ (slots t).1 := hrid.elim id fun hne => hslots t _ (h.cover ⟨t, a.rid⟩ (.inr hne))
  refine ⟨run ++ [⟨s.lsn, s.txn, s.prevLsn, .write ⟨⟨t, a.rid⟩, op⟩⟩], ?_, fun r hr w hw => ?_,
    h.rows.write rfl hlegal,
    fun hc => ?_, fun loc hloc => ?_, htrees h.trees, h.unique, h.header, h.quiet, fun hp => ?_⟩
  · exact h.log.add rfl (by
      change LastTxn _ _ _ s.phase
      rw [hphase]
      exact .write hlog.last _ _)
  · rcases List.mem_append.1 hr with hr | hr
    · exact (h.placed r hr w hw).imp_right (hslots _ _)
    · rw [List.mem_singleton.1 hr] at hw
      cases hw
      exact ⟨ht, hin⟩
  · change DiskOk c s.disk ((s.log ++ [_]).take s.durable)
    rw [durableLog_append h.log.high]
    exact h.disk hc
  · by_cases heq : loc = ⟨t, a.rid⟩
    · rw [heq]
      exact hin
    · refine hslots _ _ (h.cover loc (hloc.imp_right fun hne => ?_))
      change Write.redo ⟨⟨t, a.rid⟩, op⟩ s.rows loc ≠ none at hne
      rwa [Write.redo_eq, Function.update_of_ne heq] at hne
  · have hp' : s.phase = .flushed ∨ s.phase = .marking := hp
    rw [hphase] at hp'
    rcases hp' with hp | hp <;> cases hp

theorem load_spec {rows : List (Rid × Bytes × List Rid)} (h : load t rows s = some s') : ∃ slots rows' ihs,
    s' = { s with slots := slots, rows := rows', ihs := ihs } ∧ (∀ u, ∀ r ∈ (s.slots u).1, r ∈ (slots u).1) ∧
      (∀ loc, Below (s.rows loc) (rows' loc)) ∧
        (∀ loc, rows' loc ≠ none → s.rows loc ≠ none ∨ loc.rid ∈ (slots loc.table).1) ∧
      (TreesOk s.indexes s.ihs s.rows → UniqueKeys s.cat t rows' → TreesOk s.indexes ihs rows') := by
  induction rows generalizing s with
  | nil =>
      obtain rfl := Option.some.inj h
      exact ⟨s.slots, s.rows, s.ihs,
        rfl, fun _ _ hr => hr, fun _ => .inr rfl, fun _ hne => .inl hne, fun htrees _ => htrees⟩
  | cons row rows ih =>
      obtain ⟨rid, v, grown⟩ := row
      obtain ⟨s₁, hgrow, h⟩ := Option.bind_eq_some_iff.1 h
      obtain ⟨slots₁, rfl, hslots₁⟩ := grow_spec hgrow
      split at h
      · rename_i hok
        obtain ⟨ihs₁, hrun, h⟩ := Option.bind_eq_some_iff.1 h
        obtain ⟨slots, rows', ihs, rfl, hslots, hbelow, hcover, htrees⟩ := ih h
        change ∀ loc, Below (Function.update s.rows ⟨t, rid⟩ (some v) loc) (rows' loc) at hbelow
        have hrows : ∀ loc, Below (s.rows loc) (rows' loc) := by
          intro loc
          by_cases hloc : loc = ⟨t, rid⟩
          · rw [hloc]
            exact .inl hok.2
          · have := hbelow loc
            rwa [Function.update_of_ne hloc] at this
        refine ⟨slots, rows', ihs, rfl, fun u r hr => hslots u r (hslots₁ u r hr), hrows, fun loc hne => ?_,
          fun htrees₀ hunique => htrees ?_ hunique⟩
        · rcases hcover loc hne with hne' | hin
          · change Function.update s.rows ⟨t, rid⟩ (some v) loc ≠ none at hne'
            by_cases hloc : loc = ⟨t, rid⟩
            · rw [hloc]
              exact .inr (hslots t rid hok.1)
            · rw [Function.update_of_ne hloc] at hne'
              exact .inl hne'
          · exact .inr hin
        · -- the key is new, for both rows stay until the end
          refine htrees₀.update (fun ix hix ih₀ ih' hih hf =>
            hih.insertAny hok.2 (fun q row' hq hkey => ?_) hf) hrun
          have hnew : rows' ⟨t, rid⟩ = some v := by
            rcases hbelow ⟨t, rid⟩ with hnone | heq
            · rw [Function.update_self] at hnone
              cases hnone
            · rw [← heq, Function.update_self]
          have hold : rows' ⟨t, q⟩ = some row' := by
            rcases hrows ⟨t, q⟩ with hnone | heq
            · exact absurd (hq.symm.trans hnone) (by simp)
            · rw [← heq]
              exact hq
          have hqr := uniqueKeys_iff.1 hunique ix hix q rid row' v hold hnew hkey
          rw [hqr] at hq
          exact absurd (hq.symm.trans hok.2) (by simp)
      · cases h

theorem Inv.run_silent (h : Inv s c done run) (hphase : s.phase = .running) (hn : s.LogsNothing) (loc : Loc) :
    slotOps run loc = [] := by
  have hlog := h.log
  rw [hphase] at hlog
  refine slotOps_eq_nil fun r hr w hw => ?_
  rw [hn r (by rw [h.log.split]; exact List.mem_append_right _ hr) (hlog.last.record.2 r hr).1] at hw
  cases hw

theorem Inv.load {rows : List (Rid × Bytes × List Rid)} (h : Inv s c done run) (hphase : s.phase = .running)
    (hk : s.Keeps (.load t rows)) (hload : load t rows s = some s') : ∃ c', Inv s' c' done run := by
  have hunique := hk.2 s' hload
  have hsilent := h.run_silent hphase hk.1
  obtain ⟨slots, rows', ihs, rfl, hslots, hbelow, hcover, htrees⟩ := load_spec hload
  have htrees' := htrees h.trees hunique
  refine ⟨rows', h.log, fun r hr w hw => (h.placed r hr w hw).imp_right (hslots _ _),
    h.rows.rebase hsilent fun loc _ => hbelow loc,
    fun hc loc hnil => (h.disk hc loc hnil).trans ?_, fun loc hloc => ?_, htrees', fun u => ?_, h.header,
    h.quiet, fun hp => ?_⟩
  · rw [h.rows.start_eq hsilent]
    exact hbelow loc
  · rcases hcover loc (or_self_iff.1 hloc) with hne | hin
    · exact hslots _ _ (h.cover loc (.inr hne))
    · exact hin
  · exact uniqueKeys_of_trees (s := { s with slots := slots, rows := rows', ihs := ihs }) htrees' u
  · have hp' : s.phase = .flushed ∨ s.phase = .marking := hp
    rw [hphase] at hp'
    rcases hp' with hp | hp <;> cases hp

end Statements

end IndexSession

end Rmdb
