import Rmdb.Recovery.History

namespace Rmdb

open RecoveryManager

section Tables

variable {l : List (TxnId × Lsn)} {t u : TxnId} {v : Lsn}

theorem lookup_eraseTxn : (eraseTxn l t).lookup u = if u = t then none else l.lookup u := by
  induction l with
  | nil => simp [eraseTxn]
  | cons e l ih =>
      obtain ⟨s, w⟩ := e
      rw [eraseTxn] at ih ⊢
      by_cases hs : s = t
      · subst hs
        rw [List.filter_cons_of_neg (by simp), ih, List.lookup_cons]
        by_cases hu : u = s
        · simp [hu]
        · simp [hu, show (u == s) = false by simpa using hu]
      · rw [List.filter_cons_of_pos (by simpa using hs), List.lookup_cons, List.lookup_cons, ih]
        by_cases hu : u = s
        · simp [hu, hs]
        · simp [show (u == s) = false by simpa using hu]

theorem lookup_setTxn : (setTxn l t v).lookup u = if u = t then some v else l.lookup u := by
  rw [setTxn, List.lookup_cons, lookup_eraseTxn]
  by_cases hu : u = t
  · simp [hu]
  · simp [hu, show (u == t) = false by simpa using hu]

theorem lookup_emplaceTxn (h : l.lookup t = none) :
    (emplaceTxn l t v).lookup u = if u = t then some v else l.lookup u := by
  rw [emplaceTxn, if_neg (by simp [h]), List.lookup_append]
  by_cases hu : u = t
  · subst hu
    simp [h]
  · have hne : (u == t) = false := by simpa using hu
    simp [List.lookup_cons, hu, hne]

end Tables

variable {log : List LogRecord} {r : LogRecord} {t : TxnId}

theorem emplaceRecord_last (h : ∀ x ∈ log, x.lsn < r.lsn) : emplaceRecord r log = log ++ [r] := by
  induction log with
  | nil => rfl
  | cons x log ih =>
      have hx := h x List.mem_cons_self
      rw [emplaceRecord, if_neg hx.le.not_gt, if_neg hx.ne',
        ih fun y hy => h y (List.mem_cons_of_mem _ hy), List.cons_append]

theorem readLog_append (log : List LogRecord) (r : LogRecord) :
    readLog (log ++ [r]) = (readLog log).readRecord r := by
  rw [readLog, List.foldl_append]
  rfl

theorem emplaceTxn_ne_nil (l : List (TxnId × Lsn)) (t : TxnId) (v : Lsn) : emplaceTxn l t v ≠ [] := by
  rw [emplaceTxn]
  split
  · rintro rfl
    contradiction
  · simp

/-- A transaction record in the log makes the rebuild happen. -/
theorem rebuilds_of_ne_nil (hne : log ≠ []) (hplain : ∀ r ∈ log, r.body ≠ .staticCheckpoint) :
    ¬((readLog log).redoTxn = [] ∧ (readLog log).undoTxn = []) := by
  obtain ⟨l, r, rfl⟩ := (List.eq_nil_or_concat log).resolve_left hne
  rw [List.concat_eq_append] at hplain ⊢
  rw [readLog_append, readRecord]
  rintro ⟨hredo, hundo⟩
  cases hb : r.body with
  | begin =>
      simp only [hb] at hundo
      exact emplaceTxn_ne_nil _ _ _ hundo
  | commit =>
      simp only [hb] at hredo
      exact emplaceTxn_ne_nil _ _ _ hredo
  | abort | write w =>
      simp only [hb] at hundo
      cases hundo
  | staticCheckpoint => exact hplain r (by simp) hb

theorem committed_append (u : TxnId) :
    committed (log ++ [r]) u = (committed log u || (decide (r.logTid = u) && r.body.isCommit)) := by
  simp [committed]

theorem aborted_append (u : TxnId) :
    aborted (log ++ [r]) u = (aborted log u || (decide (r.logTid = u) && r.body.isAbort)) := by
  simp [aborted]

theorem recordsOf_append (u : TxnId) :
    recordsOf u (log ++ [r]) = if r.logTid = u then recordsOf u log ++ [r] else recordsOf u log := by
  by_cases h : r.logTid = u <;> simp [recordsOf, h]

/-- The records, latest first, are the chain that starts at `lsn`. -/
def Linked : Lsn → List LogRecord → Prop
  | lsn, [] => lsn = invalidLsn
  | lsn, r :: rs => r.lsn = lsn ∧ Linked r.prevLsn rs

def PhaseAgrees : Option TxnLife → Bool → Bool → Prop
  | none, c, a => c = false ∧ a = false
  | some ⟨_, _, .running⟩, c, a => c = false ∧ a = false
  | some ⟨_, _, .aborting⟩, c, a => c = false ∧ a = true
  | some ⟨_, _, .aborted⟩, c, a => c = false ∧ a = true
  | some ⟨_, _, .committed⟩, c, _ => c = true

structure LogInv {κ : Type} (cat : Catalog κ) (first : Lsn) (db : Db) : Prop where
  lsns : ∀ r ∈ db.log, first ≤ r.lsn ∧ r.lsn < first + db.log.length
  sorted : db.log.Pairwise fun r r' => r.lsn < r'.lsn
  absent : ∀ t, db.txns t = none → recordsOf t db.log = []
  linked : ∀ t x, db.txns t = some x → Linked x.prevLsn (recordsOf t db.log).reverse
  phase : ∀ t, PhaseAgrees (db.txns t) (committed db.log t) (aborted db.log t)
  tables : ∀ r ∈ db.log, (∀ w, r.body = .write w → w.loc.table ∈ cat.tables) ∧ r.body ≠ .staticCheckpoint
  records : (readLog db.log).logRecords = db.log
  undo : ∀ t, (readLog db.log).undoTxn.lookup t =
    (db.txns t).bind fun x => if x.phase = .committed then none else some x.prevLsn
  list : ∀ t, t ∈ (readLog db.log).txnList ↔ (db.txns t).isSome = true

variable {κ : Type} {cat : Catalog κ} {first : Lsn} {db : Db} {x : TxnLife} {body : LogBody}

theorem logInv_start (base : Store) : LogInv cat first (Db.start base) where
  lsns := by simp [Db.start]
  sorted := List.Pairwise.nil
  absent _ _ := rfl
  linked _ _ h := by cases h
  phase _ := ⟨rfl, rfl⟩
  tables := by simp [Db.start]
  records := rfl
  undo _ := rfl
  list _ := by simp [Db.start, readLog]

/-- A record of `t` that is not a checkpoint, with the transaction's phase moved along. -/
theorem LogInv.addLog (h : LogInv cat first db)
    (hprev : match db.txns t with
      | none => x.prevLsn = invalidLsn ∧ body = .begin ∧ x.phase = .running
      | some y => x.prevLsn = y.prevLsn ∧ body ≠ .begin ∧ y.phase ≠ .committed ∧
          (x.phase = .committed ↔ body = .commit))
    (hphase : PhaseAgrees (some x) (committed db.log t || body.isCommit) (aborted db.log t || body.isAbort))
    (htab : (∀ w, body = .write w → w.loc.table ∈ cat.tables) ∧ body ≠ .staticCheckpoint) :
    LogInv cat first (db.addLog first t x body) := by
  have hlen : ((db.log ++ [(⟨first + db.log.length, t, x.prevLsn, body⟩ : LogRecord)]).length : Int) =
      db.log.length + 1 := by
    simp
  have hlast : ∀ r ∈ db.log, r.lsn < first + db.log.length := fun r hr => (h.lsns r hr).2
  have hread : readLog (db.log ++ [⟨first + db.log.length, t, x.prevLsn, body⟩]) =
      (readLog db.log).readRecord ⟨first + db.log.length, t, x.prevLsn, body⟩ := readLog_append _ _
  refine ⟨?_, ?_, ?_, ?_, ?_, ?_, ?_, ?_, ?_⟩
  · intro r hr
    change _ ∧ r.lsn < first + ((db.log ++ [_]).length : Nat)
    rw [hlen]
    have hsucc : first + (db.log.length : Int) < first + ((db.log.length : Int) + 1) :=
      Int.add_lt_add_left (Int.lt_succ _) _
    rcases List.mem_append.1 hr with hr | hr
    · exact ⟨(h.lsns r hr).1, (h.lsns r hr).2.trans hsucc⟩
    · rw [List.mem_singleton.1 hr]
      exact ⟨Int.le_add_of_nonneg_right (Int.natCast_nonneg _), hsucc⟩
  · refine List.pairwise_append.2 ⟨h.sorted, List.pairwise_singleton _ _, ?_⟩
    intro r hr r' hr'
    rw [List.mem_singleton.1 hr']
    exact hlast r hr
  · intro u hu
    by_cases hut : u = t
    · simp [Db.addLog, hut] at hu
    · have hu' : db.txns u = none := by simpa [Db.addLog, hut] using hu
      change recordsOf u (db.log ++ [_]) = []
      rw [recordsOf_append, if_neg (Ne.symm hut)]
      exact h.absent u hu'
  · intro u y hy
    change Linked y.prevLsn (recordsOf u (db.log ++ [_])).reverse
    rw [recordsOf_append]
    by_cases hut : u = t
    · subst hut
      rw [if_pos rfl, List.reverse_append]
      have hy' : y = { x with prevLsn := first + db.log.length } := by
        simpa [Db.addLog] using hy.symm
      rw [hy']
      refine ⟨rfl, ?_⟩
      cases ht : db.txns u with
      | none =>
          rw [ht] at hprev
          rw [h.absent u ht]
          exact hprev.1
      | some z =>
          rw [ht] at hprev
          simp only [hprev.1]
          exact h.linked u z ht
    · rw [if_neg (Ne.symm hut)]
      exact h.linked u y (by simpa [Db.addLog, hut] using hy)
  · intro u
    change PhaseAgrees _ (committed (db.log ++ [_]) u) (aborted (db.log ++ [_]) u)
    rw [committed_append, aborted_append]
    by_cases hut : u = t
    · subst hut
      have : (db.addLog first u x body).txns u = some { x with prevLsn := first + db.log.length } := by
        simp [Db.addLog]
      rw [this]
      obtain ⟨p, ws, ph⟩ := x
      cases ph <;> simpa [PhaseAgrees] using hphase
    · have : (db.addLog first t x body).txns u = db.txns u := by simp [Db.addLog, hut]
      rw [this, decide_eq_false (Ne.symm hut), Bool.false_and, Bool.false_and, Bool.or_false, Bool.or_false]
      exact h.phase u
  · intro r hr
    rcases List.mem_append.1 hr with hr | hr
    · exact h.tables r hr
    · rw [List.mem_singleton.1 hr]
      exact htab
  · change (readLog (db.log ++ [_])).logRecords = db.log ++ [_]
    rw [hread, readRecord, h.records, emplaceRecord_last hlast]
    cases body <;> rfl
  · intro u
    change (readLog (db.log ++ [_])).undoTxn.lookup u = _
    rw [hread]
    have hold := h.undo
    have htxn : (db.addLog first t x body).txns u =
        if u = t then some { x with prevLsn := first + db.log.length } else db.txns u := by
      by_cases hut : u = t <;> simp [Db.addLog, hut]
    rw [htxn]
    cases hb : body with
    | staticCheckpoint => exact absurd hb htab.2
    | begin =>
        have hnone : db.txns t = none ∧ x.phase = .running := by
          cases ht : db.txns t with
          | none => rw [ht] at hprev; exact ⟨rfl, hprev.2.2⟩
          | some y => rw [ht] at hprev; exact absurd hb hprev.2.1
        have hl : (readLog db.log).undoTxn.lookup t = none := by rw [hold t, hnone.1]; rfl
        rw [readRecord]
        simp only
        rw [lookup_emplaceTxn hl, hold u]
        by_cases hut : u = t
        · simp [hut, hnone.2]
        · simp [hut]
    | write w =>
        have hph : x.phase ≠ .committed := by
          cases ht : db.txns t with
          | none => rw [ht, hb] at hprev; exact absurd hprev.2.1 (by simp)
          | some y => rw [ht, hb] at hprev; exact fun hc => absurd (hprev.2.2.2.1 hc) (by simp)
        rw [readRecord]
        simp only
        rw [lookup_setTxn, hold u]
        by_cases hut : u = t
        · simp [hut, hph]
        · simp [hut]
    | abort =>
        have hph : x.phase ≠ .committed := by
          cases ht : db.txns t with
          | none => rw [ht, hb] at hprev; exact absurd hprev.2.1 (by simp)
          | some y => rw [ht, hb] at hprev; exact fun hc => absurd (hprev.2.2.2.1 hc) (by simp)
        rw [readRecord]
        simp only
        rw [lookup_setTxn, hold u]
        by_cases hut : u = t
        · simp [hut, hph]
        · simp [hut]
    | commit =>
        have hph : x.phase = .committed := by
          cases ht : db.txns t with
          | none => rw [ht, hb] at hprev; exact absurd hprev.2.1 (by simp)
          | some y => rw [ht, hb] at hprev; exact hprev.2.2.2.2 rfl
        rw [readRecord]
        simp only
        rw [lookup_eraseTxn, hold u]
        by_cases hut : u = t
        · simp [hut, hph]
        · simp [hut]
  · intro u
    change u ∈ (readLog (db.log ++ [_])).txnList ↔ _
    rw [hread]
    have hold := h.list u
    have htxn : ((db.addLog first t x body).txns u).isSome = true ↔ u = t ∨ (db.txns u).isSome = true := by
      by_cases hut : u = t <;> simp [Db.addLog, hut]
    rw [htxn]
    cases hb : body with
    | begin =>
        simp only [readRecord, List.mem_append, List.mem_singleton, hold]
        exact or_comm
    | staticCheckpoint => exact absurd hb htab.2
    | write | abort | commit =>
        have hsome : (db.txns t).isSome = true := by
          cases ht : db.txns t with
          | none => rw [ht, hb] at hprev; exact absurd hprev.2.1 (by simp)
          | some y => rfl
        simp only [readRecord, hold]
        refine ⟨.inr, ?_⟩
        rintro (rfl | hu)
        · exact hsome
        · exact hu

/-- Steps that log nothing: one transaction's write set or phase changes, and no commit is involved. -/
theorem LogInv.setTxn (h : LogInv cat first db) {y : TxnLife} {db' : Db} (ht : db.txns t = some y)
    (hlog : db'.log = db.log) (htxn : db'.txns = Function.update db.txns t (some x))
    (hprev : x.prevLsn = y.prevLsn) (hy : y.phase = .aborting)
    (hx : x.phase = .aborting ∨ x.phase = .aborted) : LogInv cat first db' := by
  have hu : ∀ u, u ≠ t → db'.txns u = db.txns u := fun u hut => by rw [htxn, Function.update_of_ne hut]
  have hself : db'.txns t = some x := by rw [htxn, Function.update_self]
  refine ⟨hlog ▸ h.lsns, hlog ▸ h.sorted, ?_, ?_, ?_, hlog ▸ h.tables, hlog ▸ h.records, ?_, ?_⟩
  · intro u hn
    by_cases hut : u = t
    · rw [hut, hself] at hn
      cases hn
    · rw [hlog]
      exact h.absent u (by rw [← hu u hut]; exact hn)
  · intro u z hz
    rw [hlog]
    by_cases hut : u = t
    · subst hut
      rw [hself] at hz
      cases hz
      rw [hprev]
      exact h.linked u y ht
    · exact h.linked u z (by rw [← hu u hut]; exact hz)
  · intro u
    rw [hlog]
    by_cases hut : u = t
    · subst hut
      have hph := h.phase u
      rw [ht] at hph
      rw [hself]
      obtain ⟨p, ws, ph⟩ := x
      obtain ⟨q, vs, qh⟩ := y
      cases show qh = .aborting from hy
      rcases hx with hx | hx
      · cases show ph = .aborting from hx
        exact hph
      · cases show ph = .aborted from hx
        exact hph
    · rw [hu u hut]
      exact h.phase u
  · intro u
    rw [hlog, h.undo u]
    by_cases hut : u = t
    · subst hut
      rw [ht, hself]
      rcases hx with hx | hx <;> simp [hx, hy, hprev]
    · rw [hu u hut]
  · intro u
    rw [hlog, h.list u]
    by_cases hut : u = t
    · subst hut
      rw [ht, hself]
      rfl
    · rw [hu u hut]

theorem LogInv.apply (h : LogInv cat first db) {e : Event} (hlegal : db.Legal cat e) :
    LogInv cat first (db.apply first e) := by
  cases e with
  | begin t =>
      have ht : db.txns t = none := hlegal
      have hph := h.phase t
      rw [ht] at hph
      refine h.addLog (by rw [ht]; exact ⟨rfl, rfl, rfl⟩) ?_ ⟨nofun, nofun⟩
      rw [hph.1, hph.2]
      exact ⟨rfl, rfl⟩
  | write t w =>
      obtain ⟨⟨⟨p, ws, ph⟩, ht, hp⟩, -, -, htab, -⟩ := hlegal
      cases show ph = .running from hp
      have hph := h.phase t
      rw [ht] at hph
      have hadd : LogInv cat first (db.addLog first t ⟨p, w :: ws, .running⟩ (.write w)) := by
        refine h.addLog (by rw [ht]; exact ⟨rfl, nofun, nofun, nofun, nofun⟩) ?_ ⟨?_, nofun⟩
        · rw [hph.1, hph.2]
          exact ⟨rfl, rfl⟩
        · intro v hv
          cases hv
          exact htab
      simp only [Db.apply, ht]
      exact ⟨hadd.lsns, hadd.sorted, hadd.absent, hadd.linked, hadd.phase, hadd.tables, hadd.records,
        hadd.undo, hadd.list⟩
  | commit t =>
      obtain ⟨⟨p, ws, ph⟩, ht, hp⟩ := hlegal
      have hadd : LogInv cat first (db.addLog first t ⟨p, [], .committed⟩ .commit) := by
        refine h.addLog ?_ (Bool.or_true _) ⟨nofun, nofun⟩
        rw [ht]
        refine ⟨rfl, nofun, ?_, fun _ => rfl, fun _ => rfl⟩
        rintro rfl
        rcases hp with hp | hp <;> cases hp
      simp only [Db.apply, ht]
      exact ⟨hadd.lsns, hadd.sorted, hadd.absent, hadd.linked, hadd.phase, hadd.tables, hadd.records,
        hadd.undo, hadd.list⟩
  | abort t =>
      obtain ⟨⟨p, ws, ph⟩, ht, hp⟩ := hlegal
      cases show ph = .running from hp
      have hph := h.phase t
      rw [ht] at hph
      simp only [Db.apply, ht]
      refine h.addLog (by rw [ht]; exact ⟨rfl, nofun, nofun, nofun, nofun⟩) ?_ ⟨nofun, nofun⟩
      rw [hph.1]
      exact ⟨rfl, Bool.or_true _⟩
  | undo t =>
      obtain ⟨⟨p, ws, ph⟩, ht, hp, hne⟩ := hlegal
      obtain ⟨w, ws, rfl⟩ := List.exists_cons_of_ne_nil hne
      refine h.setTxn (x := ⟨p, ws, ph⟩) ht ?_ ?_ rfl hp (.inl hp) <;> simp [Db.apply, ht]
  | release t =>
      obtain ⟨⟨p, ws, ph⟩, ht, hp, hne⟩ := hlegal
      refine h.setTxn (x := ⟨p, ws, .aborted⟩) ht ?_ ?_ rfl hp (.inr rfl) <;>
        simp [Db.apply, ht, Db.unlockAll]

section Undo

variable {a : RecoveryManager} {st : Store}

theorem find_lsn (h : log.Pairwise fun r r' => r.lsn < r'.lsn) (hr : r ∈ log) :
    log.find? (fun x => x.lsn = r.lsn) = some r := by
  induction log with
  | nil => cases hr
  | cons x log ih =>
      obtain ⟨hx, hlog⟩ := List.pairwise_cons.1 h
      rcases List.mem_cons.1 hr with rfl | hr
      · exact List.find?_cons_of_pos (by simp)
      · rw [List.find?_cons_of_neg (by simpa using (hx r hr).ne)]
        exact ih hlog hr

/-- Walking back from a transaction's last record undoes its writes, latest first. -/
theorem undoChain_linked (hsorted : a.logRecords.Pairwise fun r r' => r.lsn < r'.lsn)
    (hpos : ∀ r ∈ a.logRecords, r.lsn ≠ invalidLsn) {rs : List LogRecord} {lsn : Lsn} {fuel : Nat}
    (hl : Linked lsn rs) (hsub : ∀ r ∈ rs, r ∈ a.logRecords) (hfuel : rs.length < fuel) :
    a.undoChain fuel lsn st = .ok ((rs.filterMap LogRecord.write?).foldl (fun st w => w.undo st) st) := by
  induction rs generalizing lsn fuel st with
  | nil =>
      obtain ⟨fuel, rfl⟩ := Nat.exists_eq_succ_of_ne_zero (Nat.ne_zero_of_lt hfuel)
      have hnone : a.logRecords.find? (fun r => r.lsn = lsn) = none := by
        refine List.find?_eq_none.2 fun r hr => ?_
        rw [show lsn = invalidLsn from hl]
        simpa using hpos r hr
      rw [undoChain, hnone]
      rfl
  | cons r rs ih =>
      obtain ⟨fuel, rfl⟩ := Nat.exists_eq_succ_of_ne_zero (Nat.ne_zero_of_lt hfuel)
      obtain ⟨rfl, hrest⟩ := hl
      rw [undoChain, find_lsn hsorted (hsub r List.mem_cons_self)]
      simp only
      rw [ih hrest (fun x hx => hsub x (List.mem_cons_of_mem _ hx)) (by simpa using hfuel)]
      cases hb : r.body <;> simp [LogRecord.write?, hb]

/-- `undo` before the indexes are rebuilt, for transactions whose chains are intact. -/
theorem undoAll_linked (hsorted : a.logRecords.Pairwise fun r r' => r.lsn < r'.lsn)
    (hpos : ∀ r ∈ a.logRecords, r.lsn ≠ invalidLsn) {ts : List TxnId}
    (hts : ∀ t ∈ ts, ∃ lsn, a.undoTxn.lookup t = some lsn ∧ Linked lsn (recordsOf t a.logRecords).reverse) :
    a.undoAll ts st =
      .ok (ts.foldl (fun st t => (writesOf t a.logRecords).reverse.foldl (fun st w => w.undo st) st) st) := by
  induction ts generalizing st with
  | nil => rfl
  | cons t ts ih =>
      obtain ⟨lsn, hlook, hl⟩ := hts t List.mem_cons_self
      have hsub : ∀ r ∈ (recordsOf t a.logRecords).reverse, r ∈ a.logRecords :=
        fun r hr => (List.mem_filter.1 (List.mem_reverse.1 hr)).1
      have hlen : (recordsOf t a.logRecords).reverse.length < a.logRecords.length + 1 := by
        rw [List.length_reverse]
        exact Nat.lt_succ_of_le (List.length_filter_le _ _)
      rw [RecoveryManager.undoAll, hlook, Option.getD_some, undoChain_linked hsorted hpos hl hsub hlen,
        List.filterMap_reverse]
      exact ih fun u hu => hts u (List.mem_cons_of_mem _ hu)

theorem undo_slot {ts : List TxnId} {loc : Loc} :
    (ts.foldl (fun st t => (writesOf t log).reverse.foldl (fun st w => w.undo st) st) st) loc =
      ts.foldl (fun v t => Slot.undoAll (Slot.opsOf t (slotLog loc log)) v) (st loc) := by
  induction ts generalizing st with
  | nil => rfl
  | cons t ts ih =>
      rw [List.foldl_cons, ih, undo_writes, opsAt_reverse, List.reverse_reverse, opsAt_writesOf]
      rfl

end Undo

end Rmdb
