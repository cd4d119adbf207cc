import Rmdb.Recovery.LogBytes
import Rmdb.Recovery.Restart
import Rmdb.Lib.Trace

namespace Rmdb

open RecoveryManager LogReader

/-- The offset in the restart file; 0 before the first checkpoint. -/
def getRestartLog (restart : Bytes) : Int := if restart.length < 4 then 0 else readInt restart

def analyzeFile {κ : Type} (cat : Catalog κ) (file restart : Bytes) :
    Except AnalyzeError RecoveryManager := do
  let offset := (getRestartLog restart).toNat
  let a ← readRecords file (file.length + 1) ⟨readLogFile file offset, 0, offset, {}⟩
  match checkTables cat a.logRecords with
  | .error e => throw (.recovery e)
  | .ok () => return a

def LogRecord.IsCheckpoint (r : LogRecord) : Prop := r.body.logType = 6

instance (r : LogRecord) : Decidable r.IsCheckpoint := inferInstanceAs (Decidable (_ = _))

instance (r : LogRecord) : Decidable r.Fits :=
  decidable_of_iff (r.totLen ≤ logBufferSize ∧ FitsInt r.lsn ∧ FitsInt r.logTid ∧ FitsInt r.prevLsn ∧
    ∀ w ∈ r.write?, w.loc.Fits) ⟨fun ⟨a, b, c, d, e⟩ => ⟨a, b, c, d, e⟩, fun h =>
      ⟨h.len, h.lsn, h.tid, h.prev, h.loc⟩⟩

/-- The log, the restart file, and whether `add_static_CKPT` has written its record and not yet the
restart offset. -/
structure LogSession where
  log : LogManager
  restart : Bytes
  marking : Bool

inductive LogStep
  | append (t : TxnId) (prevLsn : Lsn) (body : LogBody)
  | flush
  | checkpointWrite
  | checkpointMark

namespace LogSession

variable {κ : Type} (cat : Catalog κ)

def start : LogSession := ⟨LogManager.init, [], false⟩

def Recordable (r : LogRecord) : Prop := ¬r.IsCheckpoint ∧ r.Fits ∧ ∀ w ∈ r.write?, w.loc.table ∈ cat.tables

instance (r : LogRecord) : Decidable (Recordable cat r) := inferInstanceAs (Decidable (_ ∧ _))

/-- `add_static_CKPT` holds the latch of the log manager until the restart offset is written. -/
def step (s : LogSession) : LogStep → Option LogSession
  | .append t prevLsn body =>
      if s.marking = false ∧ Recordable cat (s.log.record t prevLsn body) then
        some { s with log := s.log.addLogToBuffer t prevLsn body }
      else none
  | .flush => if s.marking then none else some { s with log := s.log.flushLogToDisk }
  | .checkpointWrite =>
      if s.marking = false ∧ (s.log.record (-1) invalidLsn .staticCheckpoint).Fits then
        some { s with
          log := (s.log.addLogToBuffer (-1) invalidLsn .staticCheckpoint).writeLog, marking := true }
      else none
  | .checkpointMark =>
      if s.marking then some { s with
        restart := int32Bytes (serializeAll s.log.file).length, marking := false } else none

/-- What is in the log file when the step from `s` to `s'` has appended `k` bytes to it. -/
def crashImage (s s' : LogSession) (k : Nat) : Bytes :=
  (serializeAll s'.log.file).take ((serializeAll s.log.file).length + k)

/-- The step from `s` to `s'` is cut off before it has written a whole checkpoint record, and none is
waiting for its restart offset. -/
def Unmarked (s s' : LogSession) (k : Nat) : Prop :=
  s.marking = false ∧
    (s'.marking = true → (serializeAll s.log.file).length + k < (serializeAll s'.log.file).length)

def FoundAt (file : Bytes) (offset : Nat) (r : LogRecord) : Prop :=
  ∃ rs rest, (∀ x ∈ rs ++ [r], x.Fits) ∧ file.drop offset = serializeAll (rs ++ [r]) ++ rest

/-- `analyze` returns, and it has put every change of a record that it can find to the open table and the
page of the change. -/
def Starts (file restart : Bytes) : Prop :=
  ∃ a, analyzeFile cat file restart = .ok a ∧ ∀ r w, FoundAt file (getRestartLog restart).toNat r →
    r.write? = some w → w.loc.table ∈ cat.tables ∧ w ∈ a.redoLogs w.loc.page

structure Inv (s : LogSession) : Prop where
  sorted : s.log.records.Pairwise fun r r' => r.lsn < r'.lsn
  below : ∀ r ∈ s.log.records, r.lsn < s.log.globalLsn
  fits : ∀ r ∈ s.log.records, r.Fits
  tables : ∀ r ∈ s.log.records, ∀ w ∈ r.write?, w.loc.table ∈ cat.tables
  plain : ∀ r ∈ s.log.buffer, ¬r.IsCheckpoint
  restart : ∃ pre post, s.log.file = pre ++ post ∧
    (s.restart = [] ∧ pre = [] ∨ s.restart = int32Bytes (serializeAll pre).length) ∧
    ((∃ r ∈ post, r.IsCheckpoint) ↔ s.marking = true)

variable {cat} {s s' : LogSession} {a : LogStep} {r : LogRecord} {t : TxnId} {prevLsn : Lsn} {body : LogBody}

theorem inv_start : Inv cat start where
  sorted := List.Pairwise.nil
  below := List.forall_mem_nil _
  fits := List.forall_mem_nil _
  tables := List.forall_mem_nil _
  plain := List.forall_mem_nil _
  restart := ⟨[], [], rfl, .inl ⟨rfl, rfl⟩, by simp [start]⟩

theorem Inv.records_addLog (h : Inv cat s) (log : LogManager) (hfits : (s.log.record t prevLsn body).Fits)
    (htab : ∀ w ∈ (s.log.record t prevLsn body).write?, w.loc.table ∈ cat.tables)
    (hrecs : log.records = s.log.records ++ [s.log.record t prevLsn body])
    (hlsn : log.globalLsn = s.log.globalLsn + 1) :
    (log.records.Pairwise fun r r' => r.lsn < r'.lsn) ∧ (∀ r ∈ log.records, r.lsn < log.globalLsn) ∧
      (∀ r ∈ log.records, r.Fits) ∧ ∀ r ∈ log.records, ∀ w ∈ r.write?, w.loc.table ∈ cat.tables := by
  rw [hrecs, hlsn]
  refine ⟨?_, ?_, ?_, ?_⟩
  · refine List.pairwise_append.2 ⟨h.sorted, List.pairwise_singleton _ _, fun r hr r' hr' => ?_⟩
    rw [List.mem_singleton.1 hr']
    exact h.below r hr
  all_goals
    intro r hr
    rcases List.mem_append.1 hr with hr | hr
  · exact (h.below r hr).trans (lt_add_one _)
  · rw [List.mem_singleton.1 hr]
    exact lt_add_one _
  · exact h.fits r hr
  · rw [List.mem_singleton.1 hr]
    exact hfits
  · exact h.tables r hr
  · rw [List.mem_singleton.1 hr]
    exact htab

theorem step_cases (h : step cat s a = some s') :
    (∃ t prevLsn body, s.marking = false ∧ Recordable cat (s.log.record t prevLsn body) ∧
      s' = { s with log := s.log.addLogToBuffer t prevLsn body }) ∨
    (s.marking = false ∧ s' = { s with log := s.log.flushLogToDisk }) ∨
    (s.marking = false ∧ (s.log.record (-1) invalidLsn .staticCheckpoint).Fits ∧
      s' = { s with
        log := (s.log.addLogToBuffer (-1) invalidLsn .staticCheckpoint).writeLog, marking := true }) ∨
    (s.marking = true ∧ s' = { s with
      restart := int32Bytes (serializeAll s.log.file).length, marking := false }) := by
  cases a with
  | append t prevLsn body =>
      rw [step] at h
      split at h
      · rename_i hok
        exact .inl ⟨t, prevLsn, body, hok.1, hok.2, (Option.some.inj h).symm⟩
      · cases h
  | flush =>
      rw [step] at h
      split at h
      · cases h
      · rename_i hok
        exact .inr (.inl ⟨Bool.eq_false_iff.2 hok, (Option.some.inj h).symm⟩)
  | checkpointWrite =>
      rw [step] at h
      split at h
      · rename_i hok
        exact .inr (.inr (.inl ⟨hok.1, hok.2, (Option.some.inj h).symm⟩))
      · cases h
  | checkpointMark =>
      rw [step] at h
      split at h
      · rename_i hok
        exact .inr (.inr (.inr ⟨hok, (Option.some.inj h).symm⟩))
      · cases h

def Appends (s s' : LogSession) (added : List LogRecord) : Prop :=
  s'.log.file = s.log.file ++ added ∧
    ((s'.marking = false ∧ ∀ r ∈ added, ¬r.IsCheckpoint) ∨
      (s'.marking = true ∧ ∃ new c, added = new ++ [c] ∧ c.IsCheckpoint ∧ ∀ r ∈ new, ¬r.IsCheckpoint))

theorem Inv.appends (h : Inv cat s) (hs : step cat s a = some s') : ∃ added, Appends s s' added := by
  obtain ⟨t, prevLsn, body, hm, -, rfl⟩ | ⟨hm, rfl⟩ | ⟨-, -, rfl⟩ | ⟨-, rfl⟩ := step_cases hs
  · by_cases hfull : logBufferSize < s.log.offset + (s.log.record t prevLsn body).totLen
    · exact ⟨s.log.buffer, by simp [LogManager.addLogToBuffer, hfull, LogManager.writeLog],
        .inl ⟨hm, h.plain⟩⟩
    · exact ⟨[], by simp [LogManager.addLogToBuffer, hfull], .inl ⟨hm, by simp⟩⟩
  · exact ⟨s.log.buffer, rfl, .inl ⟨hm, h.plain⟩⟩
  · refine ⟨s.log.buffer ++ [s.log.record (-1) invalidLsn .staticCheckpoint], ?_,
      .inr ⟨rfl, _, _, rfl, rfl, h.plain⟩⟩
    change LogManager.records _ = _
    rw [LogManager.records_addLogToBuffer, LogManager.records, List.append_assoc]
  · exact ⟨[], (List.append_nil _).symm, .inl ⟨rfl, by simp⟩⟩

theorem Inv.step (h : Inv cat s) (hs : step cat s a = some s') : Inv cat s' := by
  obtain ⟨added, hfile, hmark⟩ := h.appends hs
  obtain ⟨pre, post, hsplit, hrestart, hpost⟩ := h.restart
  -- the restart file stays, and the file grows behind it
  have hgrow : s.marking = false → s'.restart = s.restart → ∃ pre post, s'.log.file = pre ++ post ∧
      (s'.restart = [] ∧ pre = [] ∨ s'.restart = int32Bytes (serializeAll pre).length) ∧
      ((∃ r ∈ post, r.IsCheckpoint) ↔ s'.marking = true) := by
    intro hm hr
    have hno : ∀ r ∈ post, ¬r.IsCheckpoint := by
      intro r hr hc
      have := hpost.1 ⟨r, hr, hc⟩
      rw [hm] at this
      cases this
    refine ⟨pre, post ++ added, by rw [hfile, hsplit, List.append_assoc], by rw [hr]; exact hrestart, ?_⟩
    rcases hmark with ⟨hm', hnone⟩ | ⟨hm', new, c, rfl, hc, -⟩
    · rw [hm']
      refine ⟨?_, by simp⟩
      rintro ⟨r, hr, hc⟩
      rcases List.mem_append.1 hr with hr | hr
      · exact absurd hc (hno r hr)
      · exact absurd hc (hnone r hr)
    · exact ⟨fun _ => hm', fun _ => ⟨c, by simp, hc⟩⟩
  obtain ⟨t, prevLsn, body, hm, ⟨hck, hfits, htab⟩, rfl⟩ | ⟨hm, rfl⟩ | ⟨hm, hfits, rfl⟩ | ⟨hm, rfl⟩ :=
    step_cases hs
  · obtain ⟨h1, h2, h3, h4⟩ := h.records_addLog (s.log.addLogToBuffer t prevLsn body) hfits htab
      LogManager.records_addLogToBuffer (by simp only [LogManager.addLogToBuffer]; split <;> rfl)
    refine ⟨h1, h2, h3, h4, ?_, hgrow hm rfl⟩
    intro r hr
    have hbuf : r ∈ s.log.buffer ∨ r = s.log.record t prevLsn body := by
      change r ∈ (s.log.addLogToBuffer t prevLsn body).buffer at hr
      simp only [LogManager.addLogToBuffer] at hr
      split at hr
      · exact .inr (List.mem_singleton.1 hr)
      · exact (List.mem_append.1 hr).imp_right List.mem_singleton.1
    rcases hbuf with hr | rfl
    · exact h.plain r hr
    · exact hck
  · have hrecs : s.log.flushLogToDisk.records = s.log.records := LogManager.records_flushLogToDisk
    refine ⟨?_, ?_, ?_, ?_, by simp, hgrow hm rfl⟩
    · change List.Pairwise _ s.log.flushLogToDisk.records
      rw [hrecs]
      exact h.sorted
    · change ∀ r ∈ s.log.flushLogToDisk.records, _
      rw [hrecs]
      exact h.below
    · change ∀ r ∈ s.log.flushLogToDisk.records, _
      rw [hrecs]
      exact h.fits
    · change ∀ r ∈ s.log.flushLogToDisk.records, _
      rw [hrecs]
      exact h.tables
  · obtain ⟨h1, h2, h3, h4⟩ :=
      h.records_addLog (s.log.addLogToBuffer (-1) invalidLsn .staticCheckpoint).writeLog
      hfits (by rintro _ ⟨⟩) (by rw [LogManager.records_writeLog, LogManager.records_addLogToBuffer])
      (by simp only [LogManager.addLogToBuffer, LogManager.writeLog]; split <;> rfl)
    exact ⟨h1, h2, h3, h4, by rintro _ ⟨⟩, hgrow hm rfl⟩
  · refine ⟨h.sorted, h.below, h.fits, h.tables, h.plain, s.log.file, [],
      (List.append_nil _).symm, .inr rfl, ?_⟩
    simp

theorem checkTables_checkpoint {rs : List LogRecord} (hr : ∃ r ∈ rs, r.IsCheckpoint) :
    ∃ e, checkTables cat rs = .error e := by
  induction rs with
  | nil => obtain ⟨r, hr, -⟩ := hr; cases hr
  | cons x rs ih =>
      obtain ⟨r, hr, hc⟩ := hr
      rw [checkTables]
      cases hb : x.body with
      | staticCheckpoint => exact ⟨_, rfl⟩
      | begin | commit | abort =>
          refine ih ⟨r, (List.mem_cons.1 hr).resolve_left ?_, hc⟩
          rintro rfl
          rw [LogRecord.IsCheckpoint, hb] at hc
          cases hc
      | write w =>
          by_cases htab : w.loc.table ∈ cat.tables
          · simp only [htab, if_true]
            refine ih ⟨r, (List.mem_cons.1 hr).resolve_left ?_, hc⟩
            rintro rfl
            rw [LogRecord.IsCheckpoint, hb] at hc
            rcases w with ⟨_, _ | _ | _⟩ <;> cases hc
          · simp only [htab, if_false]
            exact ⟨_, rfl⟩

theorem not_checkpoint {rs : List LogRecord} (h : ¬∃ r ∈ rs, r.IsCheckpoint) :
    ∀ r ∈ rs, r.body ≠ .staticCheckpoint := by
  intro r hr hb
  refine h ⟨r, hr, ?_⟩
  rw [LogRecord.IsCheckpoint, hb]
  rfl

/-- Over whole records and a torn one, `analyze` starts unless a checkpoint record is among them. -/
theorem starts_iff_no_checkpoint {file restart tail : Bytes} {rs : List LogRecord}
    (hsorted : rs.Pairwise fun r r' => r.lsn < r'.lsn) (hfits : ∀ r ∈ rs, r.Fits)
    (htab : ∀ r ∈ rs, ∀ w ∈ r.write?, w.loc.table ∈ cat.tables) (htail : TornRecord tail)
    (hfile : file.drop (getRestartLog restart).toNat = serializeAll rs ++ tail) :
    Starts cat file restart ↔ ¬∃ r ∈ rs, r.IsCheckpoint := by
  have hcount : rs.length ≤ (serializeAll rs).length := by
    clear hsorted hfits htab hfile
    induction rs with
    | nil => exact le_rfl
    | cons r rs ih =>
        rw [serializeAll, List.flatMap_cons, List.length_append, serialize_length, List.length_cons]
        have := totLen_pos (r := r)
        change _ ≤ _ + (serializeAll rs).length
        omega
  have hfuel : rs.length < file.length + 1 := by
    have hlen := congrArg List.length hfile
    rw [List.length_drop, List.length_append] at hlen
    omega
  have hread := readRecords_serializeAll
    (s := ⟨readLogFile file (getRestartLog restart).toNat, 0, (getRestartLog restart).toNat, {}⟩)
    (List.take_prefix _ _) hfits htail hfile hfuel
  have hrecs := logRecords_sorted hsorted
  rw [readLog] at hrecs
  have hfound : analyzeFile cat file restart = match checkTables cat rs with
      | .error e => .error (.recovery e)
      | .ok () => .ok (readLog rs) := by
    rw [analyzeFile]
    simp only [hread, bind, Except.bind]
    rw [hrecs]
    split <;> rfl
  constructor
  · rintro ⟨a, ha, -⟩ hc
    obtain ⟨e, he⟩ := checkTables_checkpoint hc
    rw [hfound, he] at ha
    cases ha
  · intro hc
    have hok := checkTables_ok fun r hr =>
      ⟨fun w hw => htab r hr w (by rw [LogRecord.write?, hw]; rfl), not_checkpoint hc r hr⟩
    refine ⟨readLog rs, by rw [hfound, hok], ?_⟩
    rintro r w ⟨before, rest, hbefore, hdrop⟩ hw
    have hpre := serializeAll_prefix hfits hbefore htail (hdrop.symm.trans hfile)
    have hr : r ∈ rs := hpre.subset (List.mem_append_right _ (List.mem_singleton_self r))
    refine ⟨htab r hr w hw, ?_⟩
    rw [redoLogs, List.mem_filter, logRecords_sorted hsorted, List.mem_filterMap]
    exact ⟨⟨r, hr, hw⟩, decide_eq_true rfl⟩

theorem serializeAll_append (l l' : List LogRecord) :
    serializeAll (l ++ l') = serializeAll l ++ serializeAll l' :=
  List.flatMap_append

/-- Behind the restart offset a crash leaves the records that were there, and a part of what the step
appends: whole records and a torn one. -/
theorem Inv.crashImage (h : Inv cat s) (hs : LogSession.step cat s a = some s') {k : Nat}
    (hint : (LogSession.crashImage s s' k).length < 2147483648) :
    ∃ post added found tail, Appends s s' added ∧ post ++ added <:+ s'.log.file ∧
      ((∃ r ∈ post, r.IsCheckpoint) ↔ s.marking = true) ∧ found <+: post ++ added ∧ TornRecord tail ∧
      (LogSession.crashImage s s' k).drop (getRestartLog s.restart).toNat = serializeAll found ++ tail ∧
      serializeAll found ++ tail = serializeAll post ++ (serializeAll added).take k := by
  obtain ⟨added, hadd⟩ := h.appends hs
  obtain ⟨pre, post, hsplit, hrestart, hpost⟩ := h.restart
  have hfile : s'.log.file = pre ++ (post ++ added) := by rw [hadd.1, hsplit, List.append_assoc]
  have himage : LogSession.crashImage s s' k =
      serializeAll pre ++ (serializeAll post ++ (serializeAll added).take k) := by
    rw [LogSession.crashImage, hfile, serializeAll_append pre, hsplit, serializeAll_append pre,
      List.length_append, Nat.add_assoc, List.take_length_add_append, serializeAll_append post,
      List.take_length_add_append]
  have hoff : (getRestartLog s.restart).toNat = (serializeAll pre).length := by
    rcases hrestart with ⟨hr, hp⟩ | hr
    · rw [hr, hp]
      rfl
    · have hfits : FitsInt (serializeAll pre).length := by
        rw [himage, List.length_append] at hint
        constructor <;> omega
      have hread : readInt (int32Bytes (serializeAll pre).length ++ []) = (serializeAll pre).length :=
        readInt_int32Bytes hfits
      rw [List.append_nil] at hread
      rw [hr, getRestartLog, if_neg (by rw [int32Bytes_length]; omega), hread, Int.toNat_natCast]
  have hsuffix : post ++ added <:+ s'.log.file := ⟨pre, hfile.symm⟩
  have hfits : ∀ r ∈ post ++ added, r.Fits := fun r hr =>
    (h.step hs).fits r (List.mem_append_left _ (hsuffix.subset hr))
  obtain ⟨n, tail, htake, htail⟩ := take_serializeAll hfits ((serializeAll post).length + k)
  rw [serializeAll_append, List.take_length_add_append] at htake
  refine ⟨post, added, _, tail, hadd, hsuffix, hpost, List.take_prefix n _, htail, ?_, htake.symm⟩
  rw [himage, hoff, List.drop_left, htake]

/-- Startup gets through `analyze` at every crash point but those with a checkpoint record in the file
and the restart offset still in front of it. -/
theorem starts_iff_unmarked (cat : Catalog κ) (steps : List LogStep) (a : LogStep)
    (s s' : LogSession) (k : Nat) (hrun : Trace.run (LogSession.step cat) start steps = some s)
    (hs : LogSession.step cat s a = some s') (hint : (LogSession.crashImage s s' k).length < 2147483648) :
    Starts cat (LogSession.crashImage s s' k) s.restart ↔ Unmarked s s' k := by
  have hinv : Inv cat s := by
    have hguard : Trace.Guarded (LogSession.step cat) (fun _ _ => True) start steps :=
      Trace.guarded_of_forall fun _ _ => trivial
    exact Trace.run_of_guarded (fun s a s' hI _ hstep => hI.step hstep) inv_start hguard hrun
  have hinv' := hinv.step hs
  obtain ⟨post, added, found, tail, ⟨hfile, hadd⟩, hsuffix, hpost, hfound, htail, himage, hbytes⟩ :=
    hinv.crashImage hs hint
  have hmem : ∀ r ∈ found, r ∈ s'.log.records := fun r hr =>
    List.mem_append_left _ (hsuffix.subset (hfound.subset hr))
  have hsorted : found.Pairwise fun r r' => r.lsn < r'.lsn :=
    hinv'.sorted.sublist (hfound.sublist.trans (hsuffix.sublist.trans (List.sublist_append_left _ _)))
  rw [starts_iff_no_checkpoint hsorted (fun r hr => hinv'.fits r (hmem r hr))
    (fun r hr => hinv'.tables r (hmem r hr))
    htail himage]
  have hfits : ∀ r ∈ post ++ added, r.Fits := fun r hr =>
    hinv'.fits r (List.mem_append_left _ (hsuffix.subset hr))
  have hfoundFits : ∀ r ∈ found, r.Fits := fun r hr => hinv'.fits r (hmem r hr)
  have hlen : (serializeAll s'.log.file).length =
      (serializeAll s.log.file).length + (serializeAll added).length := by
    rw [hfile, serializeAll_append, List.length_append]
  constructor
  · intro hnone
    constructor
    · refine Bool.eq_false_iff.2 fun hm => ?_
      obtain ⟨r, hr, hc⟩ := hpost.2 hm
      have hpre :=
        serializeAll_prefix hfoundFits (fun x hx => hfits x (List.mem_append_left _ hx)) htail hbytes.symm
      exact hnone ⟨r, hpre.subset hr, hc⟩
    · intro hm'
      obtain ⟨hf, -⟩ | ⟨-, new, c, rfl, hc, -⟩ := hadd
      · rw [hm'] at hf
        cases hf
      · -- a whole checkpoint record would be found
        by_contra hk
        have hall : (serializeAll (new ++ [c])).take k = serializeAll (new ++ [c]) :=
          List.take_of_length_le (by omega)
        rw [hall, ← serializeAll_append, ← List.append_nil (serializeAll (post ++ (new ++ [c])))] at hbytes
        have hpre := serializeAll_prefix hfoundFits hfits htail hbytes.symm
        exact hnone ⟨c, hpre.subset (by simp), hc⟩
  · rintro ⟨hm, hcut⟩ ⟨r, hr, hc⟩
    have hold : ∀ x ∈ post, ¬x.IsCheckpoint := by
      intro x hx hcx
      rw [hpost.1 ⟨x, hx, hcx⟩] at hm
      cases hm
    obtain ⟨-, hnew⟩ | ⟨hm', new, c, rfl, -, hnew⟩ := hadd
    · rcases List.mem_append.1 (hfound.subset hr) with hr | hr
      · exact hold r hr hc
      · exact hnew r hr hc
    · rw [← List.append_assoc] at hfound
      rcases List.prefix_concat_iff.1 hfound with hwhole | hpart
      · -- the checkpoint record was cut off
        have hlong := congrArg List.length hbytes
        have := hcut hm'
        rw [hwhole, List.append_assoc, serializeAll_append, List.length_append, List.length_append,
          List.length_append, List.length_take] at hlong
        omega
      · rcases List.mem_append.1 (hpart.subset hr) with hr | hr
        · exact hold r hr hc
        · exact hnew r hr hc

/-- A static checkpoint: the transaction that asks for it is committed first. -/
def checkpointed : List LogStep := [.append 0 (-1) .begin, .append 0 0 .commit, .flush]

def oneTable : Catalog Bytes := ⟨["t"], fun _ => [], fun _ => List.nodup_nil, fun _ => []⟩

def beforeCheckpoint : LogSession := ⟨⟨2, [], [⟨0, 0, -1, .begin⟩, ⟨1, 0, 0, .commit⟩]⟩, [], false⟩

def checkpointWritten : LogSession :=
  ⟨⟨3, [], [⟨0, 0, -1, .begin⟩, ⟨1, 0, 0, .commit⟩, ⟨2, -1, -1, .staticCheckpoint⟩]⟩, [], true⟩

/-- One byte of the checkpoint record is missing. -/
theorem starts_tornCheckpoint :
    Starts oneTable (LogSession.crashImage beforeCheckpoint checkpointWritten 19) [] :=
  (starts_iff_unmarked oneTable checkpointed .checkpointWrite beforeCheckpoint checkpointWritten 19 rfl rfl
    (by decide)).2 ⟨rfl, fun _ => by decide⟩

/-- The record is in the file, and the restart offset is not. -/
theorem writtenCheckpoint_stops : ¬∀ (cat : Catalog Bytes) (steps : List LogStep) (a : LogStep)
    (s s' : LogSession) (k : Nat),
    Trace.run (LogSession.step cat) start steps = some s → LogSession.step cat s a = some s' →
    (LogSession.crashImage s s' k).length < 2147483648 →
    Starts cat (LogSession.crashImage s s' k) s.restart := by
  intro h
  obtain ⟨a, ha, -⟩ := h oneTable checkpointed .checkpointWrite beforeCheckpoint checkpointWritten 20 rfl rfl
    (by decide)
  have hthrows : (analyzeFile oneTable (LogSession.crashImage beforeCheckpoint checkpointWritten 20)
    []).toOption.isNone =
      true := by decide +kernel
  change (analyzeFile oneTable (LogSession.crashImage beforeCheckpoint checkpointWritten 20) []) = .ok a at ha
  rw [ha] at hthrows
  cases hthrows

end LogSession

end Rmdb
