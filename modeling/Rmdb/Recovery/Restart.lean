import Rmdb.Recovery.Crash

namespace Rmdb

open RecoveryManager Slot

section LogRecords

variable {l log : List LogRecord} {r x : LogRecord}

theorem mem_emplaceRecord (hx : x ∈ emplaceRecord r l) : x = r ∨ x ∈ l := by
  induction l with
  | nil => exact .inl (List.mem_singleton.1 hx)
  | cons y l ih =>
      rw [emplaceRecord] at hx
      split at hx
      · exact List.mem_cons.1 hx
      · split at hx
        · exact .inr hx
        · rcases List.mem_cons.1 hx with rfl | hx
          · exact .inr List.mem_cons_self
          · exact (ih hx).imp_right (List.mem_cons_of_mem _)

theorem sorted_emplaceRecord (h : l.Pairwise fun r r' => r.lsn < r'.lsn) :
    (emplaceRecord r l).Pairwise fun r r' => r.lsn < r'.lsn := by
  induction l with
  | nil => exact List.pairwise_singleton _ _
  | cons y l ih =>
      obtain ⟨hy, hl⟩ := List.pairwise_cons.1 h
      rw [emplaceRecord]
      split
      · rename_i hlt
        refine List.pairwise_cons.2 ⟨?_, h⟩
        intro z hz
        rcases List.mem_cons.1 hz with rfl | hz
        · exact hlt
        · exact hlt.trans (hy z hz)
      · split
        · exact h
        · rename_i hlt hne
          refine List.pairwise_cons.2 ⟨?_, ih hl⟩
          intro z hz
          rcases mem_emplaceRecord hz with rfl | hz
          · exact lt_of_le_of_ne (not_lt.1 hlt) (Ne.symm hne)
          · exact hy z hz

theorem lsn_mem_emplaceRecord : r.lsn ∈ (emplaceRecord r l).map LogRecord.lsn ∧
    ∀ n ∈ l.map LogRecord.lsn, n ∈ (emplaceRecord r l).map LogRecord.lsn := by
  induction l with
  | nil => exact ⟨List.mem_cons_self, nofun⟩
  | cons y l ih =>
      rw [emplaceRecord]
      split
      · exact ⟨List.mem_cons_self, fun n hn => List.mem_cons_of_mem _ hn⟩
      · split
        · rename_i heq
          exact ⟨by rw [heq]; exact List.mem_cons_self, fun n hn => hn⟩
        · refine ⟨List.mem_cons_of_mem _ ih.1, fun n hn => ?_⟩
          rcases List.mem_cons.1 hn with rfl | hn
          · exact List.mem_cons_self
          · exact List.mem_cons_of_mem _ (ih.2 n hn)

theorem length_emplaceRecord (h : l.Pairwise fun r r' => r.lsn < r'.lsn) :
    (emplaceRecord r l).length = if r.lsn ∈ l.map LogRecord.lsn then l.length else l.length + 1 := by
  induction l with
  | nil => rfl
  | cons y l ih =>
      obtain ⟨hy, hl⟩ := List.pairwise_cons.1 h
      rw [emplaceRecord]
      split
      · rename_i hlt
        have hnot : r.lsn ∉ (y :: l).map LogRecord.lsn := by
          intro hin
          obtain ⟨z, hz, hzr⟩ := List.mem_map.1 hin
          rcases List.mem_cons.1 hz with rfl | hz
          · exact hlt.ne' hzr
          · exact (hlt.trans (hy z hz)).ne' hzr
        rw [if_neg hnot]
        rfl
      · split
        · rename_i heq
          rw [if_pos (by rw [heq]; exact List.mem_cons_self)]
        · rename_i hne
          rw [List.length_cons, ih hl, List.map_cons]
          by_cases hin : r.lsn ∈ l.map LogRecord.lsn <;> simp [hin, hne]

theorem logRecords_readLog (log : List LogRecord) :
    (readLog log).logRecords = log.foldl (fun l r => emplaceRecord r l) [] := by
  have hfold : ∀ (log : List LogRecord) (a : RecoveryManager),
      (log.foldl readRecord a).logRecords = log.foldl (fun l r => emplaceRecord r l) a.logRecords := by
    intro log
    induction log with
    | nil => intro a; rfl
    | cons r log ih =>
        intro a
        rw [List.foldl_cons, List.foldl_cons, ih]
        congr 1
        rw [readRecord]
        cases r.body <;> rfl
  exact hfold log {}

/-- The map of records holds as many as were read only if no two of them share an lsn. -/
theorem lsn_nodup_of_length (h : (readLog log).logRecords.length = log.length) :
    (log.map LogRecord.lsn).Nodup := by
  have hle : ∀ (log l : List LogRecord), l.Pairwise (fun r r' => r.lsn < r'.lsn) →
      (log.foldl (fun l r => emplaceRecord r l) l).length ≤ l.length + log.length := by
    intro log
    induction log with
    | nil => intro l _; exact le_rfl
    | cons r log ih =>
        intro l hl
        have := ih (emplaceRecord r l) (sorted_emplaceRecord hl)
        rw [length_emplaceRecord hl] at this
        rw [List.foldl_cons, List.length_cons]
        split at this <;> omega
  have hnodup : ∀ (log l : List LogRecord), l.Pairwise (fun r r' => r.lsn < r'.lsn) →
      (log.foldl (fun l r => emplaceRecord r l) l).length = l.length + log.length →
      (log.map LogRecord.lsn).Nodup ∧ ∀ n ∈ log.map LogRecord.lsn, n ∉ l.map LogRecord.lsn := by
    intro log
    induction log with
    | nil => intro l _ _; exact ⟨List.nodup_nil, nofun⟩
    | cons r log ih =>
        intro l hl hlen
        have hs := sorted_emplaceRecord (r := r) hl
        have hup := hle log (emplaceRecord r l) hs
        have hr := length_emplaceRecord (r := r) hl
        rw [List.foldl_cons, List.length_cons] at hlen
        have hnot : r.lsn ∉ l.map LogRecord.lsn := by
          intro hin
          rw [if_pos hin] at hr
          omega
        rw [if_neg hnot] at hr
        obtain ⟨hnd, hdis⟩ := ih (emplaceRecord r l) hs (by omega)
        refine ⟨List.nodup_cons.2 ⟨fun hin => hdis _ hin lsn_mem_emplaceRecord.1, hnd⟩, ?_⟩
        intro n hn
        rcases List.mem_cons.1 hn with rfl | hn
        · exact hnot
        · exact fun hc => hdis n hn (lsn_mem_emplaceRecord.2 n hc)
  refine (hnodup log [] List.Pairwise.nil ?_).1
  rw [← logRecords_readLog, h, List.length_nil, Nat.zero_add]

theorem logRecords_sorted {rs : List LogRecord} (h : rs.Pairwise fun r r' => r.lsn < r'.lsn) :
    (readLog rs).logRecords = rs := by
  induction rs using List.reverseRecOn with
  | nil => rfl
  | append_singleton rs r ih =>
      obtain ⟨hrs, -, hlt⟩ := List.pairwise_append.1 h
      have hlast : emplaceRecord r rs = rs ++ [r] :=
        emplaceRecord_last fun x hx => hlt x hx r (List.mem_singleton_self r)
      rw [readLog_append, readRecord, ih hrs, hlast]
      cases r.body <;> rfl

end LogRecords

section Sessions

variable {κ : Type} [DecidableEq κ]

/-- A store that recovery can pass through: logged writes are redone and undone, and while
the indexes are created again each slot is as it was before that or as it will be. -/
inductive RecoveryVersion (cat : Catalog κ) (order : List (String × Int)) (log : List LogRecord)
    (disk : Store) : Store → Prop
  | start : RecoveryVersion cat order log disk disk
  | redo {st : Store} {r : LogRecord} {w : Write} (h : RecoveryVersion cat order log disk st) (hr : r ∈ log)
      (hw : r.write? = some w) : RecoveryVersion cat order log disk (w.redo st)
  | undo {st : Store} {r : LogRecord} {w : Write} (h : RecoveryVersion cat order log disk st) (hr : r ∈ log)
      (hw : r.write? = some w) : RecoveryVersion cat order log disk (w.undo st)
  | rebuild {mid fin st : Store}
      (hmid : (readLog log).undoAll (readLog log).undoTxnList ((readLog log).redo order disk) = .ok mid)
      (hfin : recover cat order log disk = .ok fin) (hst : ∀ loc, st loc = mid loc ∨ st loc = fin loc) :
      RecoveryVersion cat order log disk st

/-- A version of a page that a session with the events `es`, started from `st`, can leave on
disk if `durable` is what reaches the disk of its log. -/
def SessionVersion (st : Store) (es : List Event) (durable : List LogRecord) (page : String × Int)
    (disk : Store) : Prop :=
  ∃ n, (∀ r ∈ ((Db.start st).applyAll 0 (es.take n)).log, ∀ w, r.write? = some w →
    w.loc.page = page → r ∈ durable) ∧
    ∀ loc, loc.page = page → disk loc = ((Db.start st).applyAll 0 (es.take n)).store loc

/-- Sessions over one directory. Each starts with recovery, numbers its records from 0 on and
ends with a crash; the log file is appended to, and is kept here session by session. -/
inductive Sessions (cat : Catalog κ) (base : Store) : List (List LogRecord) → Store → Prop
  | fresh : Sessions cat base [] base
  | session {logs : List (List LogRecord)} {disk st disk' : Store} {order : List (String × Int)}
      {es : List Event} {d : Nat}
      (h : Sessions cat base logs disk) (horder : (readLog logs.flatten).RedoOrder order)
      (hrec : recover cat order logs.flatten disk = .ok st) (hrun : Db.LegalRun cat 0 (Db.start st) es)
      (hdisk : ∀ page,
        (∃ v, RecoveryVersion cat order logs.flatten disk v ∧ ∀ loc, loc.page = page → disk' loc = v loc) ∨
          SessionVersion st es (((Db.start st).applyAll 0 es).log.take d) page disk') :
      Sessions cat base (logs ++ [((Db.start st).applyAll 0 es).log.take d]) disk'

def allCommitted (base : Store) (logs : List (List LogRecord)) : Store :=
  logs.foldl (fun st l => effects (winner l) st l) base

def OneLogged (logs : List (List LogRecord)) : Prop := logs.Pairwise fun l l' => l = [] ∨ l' = []

variable {cat : Catalog κ} {base disk st : Store} {order : List (String × Int)} {logs : List (List LogRecord)}
  {log l : List LogRecord} {es : List Event} {loc : Loc}

theorem OneLogged.flatten (h : OneLogged logs) : logs.flatten = [] ∨ logs.flatten ∈ logs := by
  induction logs with
  | nil => exact .inl rfl
  | cons l logs ih =>
      obtain ⟨hl, hlogs⟩ := List.pairwise_cons.1 h
      by_cases hnil : l = []
      · subst hnil
        exact (ih hlogs).imp_right (List.mem_cons_of_mem _)
      · have hrest : logs.flatten = [] :=
          List.flatten_eq_nil_iff.2 fun l' hl' => (hl l' hl').resolve_left hnil
        rw [List.flatten_cons, hrest, List.append_nil]
        exact .inr List.mem_cons_self

theorem OneLogged.allCommitted (h : OneLogged logs) :
    allCommitted base logs = effects (winner logs.flatten) base logs.flatten := by
  induction logs with
  | nil => rfl
  | cons l logs ih =>
      obtain ⟨hl, hlogs⟩ := List.pairwise_cons.1 h
      by_cases hnil : l = []
      · subst hnil
        exact ih hlogs
      · have hrest : ∀ l' ∈ logs, l' = [] := fun l' hl' => (hl l' hl').resolve_left hnil
        have hskip : ∀ (logs : List (List LogRecord)) (st : Store), (∀ l' ∈ logs, l' = []) →
            logs.foldl (fun st l => effects (winner l) st l) st = st := by
          intro logs
          induction logs with
          | nil => intros; rfl
          | cons l' logs ih =>
              intro st hall
              rw [List.foldl_cons, hall l' List.mem_cons_self]
              exact ih st fun x hx => hall x (List.mem_cons_of_mem _ hx)
        rw [Rmdb.allCommitted, List.foldl_cons, hskip _ _ hrest, List.flatten_cons,
          List.flatten_eq_nil_iff.2 hrest, List.append_nil]

theorem OneLogged.noOverwrite (h : OneLogged logs) (hclean : ∀ l ∈ logs, NoOverwrite l) :
    NoOverwrite logs.flatten := by
  rcases h.flatten with hnil | hmem
  · rw [hnil]
    exact noOverwrite_of_no_abort fun _ => rfl
  · exact hclean _ hmem

/-- Recovery can be interrupted: every version it passes through can be recovered from. -/
theorem RecoveryVersion.compat {db : Db} {v : Store} (h : RecoveryVersion cat order db.log disk v)
    (hl : LogInv cat 0 db) (hd : DataInv cat base db) (hno : NoOverwrite db.log)
    (horder : (readLog db.log).RedoOrder order)
    (hdisk : ∀ loc, Compat base db.log loc (disk loc)) (loc : Loc) :
    Compat base db.log loc (v loc) := by
  induction h generalizing loc with
  | start => exact hdisk loc
  | redo _ hr hw ih =>
      rename_i w _
      rw [Write.redo_eq]
      by_cases hloc : loc = w.loc
      · subst hloc
        rw [Function.update_self]
        exact (ih _).redo (mem_slotLog.2 ⟨_, hr, w, hw, rfl, rfl⟩)
      · rw [Function.update_of_ne hloc]
        exact ih loc
  | undo _ hr hw ih =>
      rename_i w _
      rw [Write.undo_eq]
      by_cases hloc : loc = w.loc
      · subst hloc
        rw [Function.update_self]
        exact (ih _).undo (mem_slotLog.2 ⟨_, hr, w, hw, rfl, rfl⟩)
      · rw [Function.update_of_ne hloc]
        exact ih loc
  | rebuild hmid hfin hst =>
      rw [undoAll_of_compat hl hd hno le_rfl hdisk horder] at hmid
      rw [recover_of_compat hl hd hno le_rfl hdisk horder] at hfin
      cases hmid
      cases hfin
      rw [or_self_iff.1 (hst loc)]
      exact compat_effects _

theorem SessionVersion.compat {durable : List LogRecord} {page : String × Int} {v : Store}
    (h : SessionVersion st es durable page v) (hpage : loc.page = page) : Compat st durable loc (v loc) := by
  obtain ⟨n, hwal, hv⟩ := h
  rw [hv loc hpage]
  exact compat_of_durable hwal hpage

/-- While at most one session has logged anything, the file is the log of one history from
`base` and the pages on disk can be recovered from. -/
theorem sessions_inv (hbase : ∀ tab, UniqueKeys cat tab base) (h : Sessions cat base logs disk)
    (hclean : ∀ l ∈ logs, NoOverwrite l) (hone : OneLogged logs) :
    ∃ db, db.log = logs.flatten ∧ LogInv cat 0 db ∧ DataInv cat base db ∧
      ∀ loc, Compat base logs.flatten loc (disk loc) := by
  induction h with
  | fresh =>
      exact ⟨Db.start base, rfl, logInv_start base,
        dataInv_start hbase, fun _ => ⟨fun _ => rfl, fun _ => rfl⟩⟩
  | session h horder hrec hrun hdisk ih =>
      rename_i logs disk st disk' order es d
      obtain ⟨hone', -, hlast⟩ := List.pairwise_append.1 hone
      have hclean' : ∀ l ∈ logs, NoOverwrite l := fun l hl => hclean l (List.mem_append_left _ hl)
      obtain ⟨db, hlog, hl, hd, hcompat⟩ := ih hclean' hone'
      have hno := OneLogged.noOverwrite hone' hclean'
      rw [← hlog] at hno hcompat horder hrec hdisk
      rw [recover_of_compat hl hd hno le_rfl hcompat horder] at hrec
      cases hrec
      rw [List.flatten_append, List.flatten_singleton, ← hlog]
      -- a page of the previous crash or of the recovery
      have hrecovered : ∀ v loc, RecoveryVersion cat order db.log disk v →
          Compat base (db.log ++ ((Db.start (effects (winner db.log) base db.log)).applyAll 0 es).log.take
            d) loc (v loc) := by
        intro v loc hv
        refine (hv.compat hl hd hno horder hcompat loc).mono ?_
        rw [slotLog_append]
        exact List.subset_append_left _ _
      by_cases hnil : ((Db.start (effects (winner db.log) base db.log)).applyAll 0 es).log.take d = []
      · refine ⟨db, by rw [hnil, List.append_nil], hl, hd, fun loc => ?_⟩
        rcases hdisk loc.page with ⟨v, hv, hpage⟩ | hs
        · rw [hpage loc rfl]
          exact hrecovered v loc hv
        · rw [hnil] at hs ⊢
          rw [List.append_nil, (hs.compat rfl).1 rfl]
          exact compat_effects _
      · -- the session that logs: all before it have not, and it starts from the base
        have hempty : db.log = [] := by
          rw [hlog, List.flatten_eq_nil_iff]
          exact fun l hl => (hlast l hl _ (List.mem_singleton_self _)).resolve_right hnil
        have hst : effects (winner db.log) base db.log = base := by
          rw [hempty]
          rfl
        rw [hst] at hrecovered hclean hrun hdisk ⊢
        obtain ⟨m, hm⟩ : ∃ m, ((Db.start base).applyAll 0 (es.take m)).log =
            ((Db.start base).applyAll 0 es).log.take d :=
          Db.exists_log_take (Nat.zero_le d)
        have hno' := hclean _ (List.mem_append_right _ (List.mem_singleton_self _))
        rw [← hm] at hno'
        obtain ⟨hl', hd'⟩ := inv_run (logInv_start base) (dataInv_start hbase) (hrun.take m) hno'
        refine ⟨_, by rw [hm, hempty, List.nil_append], hl', hd', fun loc => ?_⟩
        rcases hdisk loc.page with ⟨v, hv, hpage⟩ | hs
        · rw [hpage loc rfl]
          exact hrecovered v loc hv
        · rw [hempty, List.nil_append]
          exact hs.compat rfl

theorem head_lsn (first : Lsn) (es : List Event) (db : Db) (h : ∀ r, db.log.head? = some r → r.lsn = first) :
    ∀ r, (db.applyAll first es).log.head? = some r → r.lsn = first := by
  induction es generalizing db with
  | nil => exact h
  | cons e es ih =>
      refine ih _ fun r hr => ?_
      rcases Db.log_apply first db e with heq | ⟨t, p, body, heq⟩
      · rw [heq] at hr
        exact h r hr
      · rw [heq] at hr
        cases hlog : db.log with
        | nil =>
            rw [hlog] at hr
            cases hr
            exact Int.add_zero first
        | cons r' l =>
            rw [hlog] at hr
            exact h r (by rw [hlog]; exact hr)

theorem sessions_lsn (h : Sessions cat base logs disk) (hl : l ∈ logs) (hne : l ≠ []) :
    0 ∈ l.map LogRecord.lsn := by
  induction h with
  | fresh => cases hl
  | session h horder hrec hrun hdisk ih =>
      rename_i st _ _ es d
      rcases List.mem_append.1 hl with hl | hl
      · exact ih hl
      · rw [List.mem_singleton.1 hl] at hne ⊢
        cases hlog : ((Db.start st).applyAll 0 es).log with
        | nil =>
            rw [hlog, List.take_nil] at hne
            exact absurd rfl hne
        | cons r log =>
            have hr : r.lsn = 0 := head_lsn 0 es (Db.start st) nofun r (by rw [hlog]; rfl)
            rw [hlog] at hne
            cases d with
            | zero => exact absurd rfl hne
            | succ d =>
                rw [List.take_succ_cons, List.map_cons, hr]
                exact List.mem_cons_self

def insertCommit (loc : Loc) (v : Bytes) : List Event := [.begin 0, .write 0 ⟨loc, .put v⟩, .commit 0]

def insertLog (loc : Loc) (v : Bytes) : List LogRecord :=
  [⟨0, 0, -1, .begin⟩, ⟨1, 0, 0, .write ⟨loc, .put v⟩⟩, ⟨2, 0, 1, .commit⟩]

theorem aborted_insertLog (loc : Loc) (v : Bytes) (t : TxnId) : aborted (insertLog loc v) t = false := by
  simp [aborted, insertLog, LogBody.isAbort]

/-- The first session; none of its pages is written. -/
theorem firstSession : Sessions oneTable (fun _ => none) [insertLog slot [1]] (fun _ => none) := by
  have horder : (readLog ([] : List (List LogRecord)).flatten).RedoOrder [] :=
    ⟨List.nodup_nil, fun page => by simp [redoLogs, readLog]⟩
  have hrun : Db.LegalRun oneTable 0 (Db.start fun _ => none) (insertCommit slot [1]) :=
    ⟨rfl, ⟨⟨_, rfl, rfl⟩, .inl rfl, rfl, List.mem_singleton_self _, oneTable_unique _ _⟩,
      ⟨_, rfl, .inl rfl⟩, trivial⟩
  change Sessions _ _ ([] ++ [((Db.start fun _ => none).applyAll 0 (insertCommit slot [1])).log.take 3]) _
  exact .session .fresh horder rfl hrun fun page => .inl ⟨_, .start, fun _ _ => rfl⟩

end Sessions

end Rmdb
