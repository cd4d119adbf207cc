import Rmdb.Recovery.DataInv

namespace Rmdb

open RecoveryManager Slot

section Growth

variable {S E α : Type*} {f : S → E → S}

theorem log_foldl (log : S → List α) (h : ∀ s e, log (f s e) = log s ∨ ∃ r, log (f s e) = log s ++ [r])
    (es : List E) (s : S) :
    log s <+: log (es.foldl f s) := by
  induction es generalizing s with
  | nil => exact List.prefix_rfl
  | cons e es ih =>
      refine List.IsPrefix.trans ?_ (ih (f s e))
      rcases h s e with h | ⟨r, h⟩
      · rw [h]
      · rw [h]
        exact List.prefix_append _ _

/-- Where each step appends at most one record, every prefix of the log is the log of an earlier point. -/
theorem exists_foldl_take (log : S → List α)
    (h : ∀ s e, log (f s e) = log s ∨ ∃ r, log (f s e) = log s ++ [r]) (es : List E) (s : S) {d : Nat}
    (hlow : (log s).length ≤ d) : ∃ m, log ((es.take m).foldl f s) = (log (es.foldl f s)).take d := by
  induction es generalizing s with
  | nil => exact ⟨0, (List.take_of_length_le hlow).symm⟩
  | cons e es ih =>
      by_cases hd : (log (f s e)).length ≤ d
      · obtain ⟨m, hm⟩ := ih (f s e) hd
        exact ⟨m + 1, hm⟩
      · -- the record of this step is the first one that is lost
        have hlen : (log s).length = d := by
          rcases h s e with h | ⟨r, h⟩
          · rw [h] at hd
            exact absurd hlow hd
          · rw [h, List.length_append, List.length_singleton] at hd
            omega
        refine ⟨0, ?_⟩
        rw [← hlen]
        exact List.prefix_iff_eq_take.1 (log_foldl log h (e :: es) s)

end Growth

section Runs

variable {κ : Type} {cat : Catalog κ} {first : Lsn} {base : Store} {db : Db} {e : Event} {es : List Event}

theorem Db.log_apply (first : Lsn) (db : Db) (e : Event) : (db.apply first e).log = db.log ∨
    ∃ t p body, (db.apply first e).log = db.log ++ [⟨first + db.log.length, t, p, body⟩] := by
  cases e with
  | begin t => exact .inr ⟨_, _, _, rfl⟩
  | write t w | commit t | abort t =>
      cases ht : db.txns t with
      | none => exact .inl (by simp [Db.apply, ht])
      | some x => exact .inr ⟨t, x.prevLsn, _, by simp only [Db.apply, ht]; rfl⟩
  | undo t =>
      left
      rw [Db.apply]
      split <;> rfl
  | release t =>
      left
      rw [Db.apply]
      split <;> rfl

theorem Db.log_applyAll (first : Lsn) (es : List Event) (db : Db) : db.log <+: (db.applyAll first es).log :=
  log_foldl Db.log (fun db e => (Db.log_apply first db e).imp_right fun ⟨_, _, _, h⟩ => ⟨_, h⟩) es db

/-- Every prefix of the log is the log of an earlier point of the history. -/
theorem Db.exists_log_take {d : Nat} (hlow : db.log.length ≤ d) :
    ∃ m, (db.applyAll first (es.take m)).log = (db.applyAll first es).log.take d :=
  exists_foldl_take Db.log (fun db e => (Db.log_apply first db e).imp_right fun ⟨_, _, _, h⟩ =>
    ⟨_, h⟩) es db hlow

theorem Db.LegalRun.take (h : Db.LegalRun cat first db es) (m : Nat) :
    Db.LegalRun cat first db (es.take m) := by
  induction es generalizing db m with
  | nil => rw [List.take_nil]; trivial
  | cons e es ih =>
      cases m with
      | zero => trivial
      | succ m => exact ⟨h.1, ih h.2 m⟩

theorem inv_run (hl : LogInv cat first db) (hd : DataInv cat base db) (hrun : Db.LegalRun cat first db es)
    (hno : NoOverwrite (db.applyAll first es).log) :
    LogInv cat first (db.applyAll first es) ∧ DataInv cat base (db.applyAll first es) := by
  induction es generalizing db with
  | nil => exact ⟨hl, hd⟩
  | cons e es ih =>
      have hl' := hl.apply hrun.1
      obtain ⟨l, hpre⟩ := Db.log_applyAll first es (db.apply first e)
      have hno' : NoOverwrite (db.apply first e).log := by
        refine NoOverwrite.of_append (l := l) ?_
        rw [hpre]
        exact hno
      exact ih hl' (hd.apply hl hrun.1 hno') hrun.2 hno

end Runs

section Versions

variable {first : Lsn} {base : Store} {log log' : List LogRecord} {loc : Loc} {v : Option Bytes} {db : Db}

/-- What a slot on disk has in common with the slot at the restart offset: all of it when
the log is silent on it, and whether it is set when the log knows only updates of it. -/
def Compat (base : Store) (log : List LogRecord) (loc : Loc) (v : Option Bytes) : Prop :=
  (slotLog loc log = [] → v = base loc) ∧
    ((∀ e ∈ slotLog loc log, e.2.isSet = true) → v.isSome = (base loc).isSome)

theorem Compat.mono (h : Compat base log loc v) (hsub : slotLog loc log ⊆ slotLog loc log') :
    Compat base log' loc v := by
  refine ⟨fun hnil => h.1 ?_, fun hset => h.2 fun e he => hset e (hsub he)⟩
  rw [hnil] at hsub
  exact List.subset_nil.1 hsub

theorem Compat.redo (h : Compat base log loc v) {t : TxnId} {o : Op Bytes} (ho : (t, o) ∈ slotLog loc log) :
    Compat base log loc (o.redo v) := by
  refine ⟨fun hnil => absurd ho (by rw [hnil]; exact List.not_mem_nil), fun hset => ?_⟩
  rw [Op.isSome_redo (hset _ ho)]
  exact h.2 hset

theorem Compat.undo (h : Compat base log loc v) {t : TxnId} {o : Op Bytes} (ho : (t, o) ∈ slotLog loc log) :
    Compat base log loc (o.undo v) := by
  refine ⟨fun hnil => absurd ho (by rw [hnil]; exact List.not_mem_nil), fun hset => ?_⟩
  rw [Op.isSome_undo (hset _ ho)]
  exact h.2 hset

/-- What the winners leave in a slot is a version that replay may start from. -/
theorem compat_effects (W : TxnId → Bool) : Compat base log loc (effects W base log loc) := by
  rw [effects_slot]
  refine ⟨fun hnil => by rw [hnil]; rfl, fun hset => isSome_redoAll ?_⟩
  intro o ho
  obtain ⟨e, he, rfl⟩ := List.mem_map.1 ho
  exact hset e (List.mem_filter.1 he).1

def Logged (txns : TxnId → Option TxnLife) (log : List LogRecord) : Prop :=
  ∀ t x, txns t = some x → ∀ w ∈ x.writeSet, (t, w.op) ∈ slotLog w.loc log

theorem Logged.update {txns : TxnId → Option TxnLife} (h : Logged txns log) {t : TxnId} {x : TxnLife}
    (hx : ∀ w ∈ x.writeSet, (t, w.op) ∈ slotLog w.loc log) :
    Logged (Function.update txns t (some x)) log := by
  intro u y hy w hw
  by_cases hut : u = t
  · subst hut
    rw [Function.update_self] at hy
    cases hy
    exact hx w hw
  · rw [Function.update_of_ne hut] at hy
    exact h u y hy w hw

structure VersionInv (base : Store) (db : Db) : Prop where
  logged : Logged db.txns db.log
  compat : ∀ loc, Compat base db.log loc (db.store loc)

theorem versionInv_start (base : Store) : VersionInv base (Db.start base) where
  logged _ _ h := by cases h
  compat _ := ⟨fun _ => rfl, fun _ => rfl⟩

theorem VersionInv.addLog (h : VersionInv base db) {t : TxnId} {x : TxnLife} {body : LogBody}
    (hx : ∀ w ∈ x.writeSet, (t, w.op) ∈ slotLog w.loc (db.addLog first t x body).log) :
    VersionInv base (db.addLog first t x body) := by
  have hsub : ∀ loc, slotLog loc db.log ⊆ slotLog loc (db.addLog first t x body).log := by
    intro loc
    rw [Db.addLog, slotLog_append]
    exact List.subset_append_left _ _
  refine ⟨Logged.update ?_ hx, fun loc => (h.compat loc).mono (hsub loc)⟩
  exact fun u y hy w hw => hsub w.loc (h.logged u y hy w hw)

theorem VersionInv.apply (h : VersionInv base db) (e : Event) : VersionInv base (db.apply first e) := by
  have hold : ∀ {t : TxnId} {x : TxnLife} {r : LogRecord}, db.txns t = some x → ∀ w ∈ x.writeSet,
      (t, w.op) ∈ slotLog w.loc (db.log ++ [r]) := by
    intro t x r ht w hw
    rw [slotLog_append]
    exact List.mem_append_left _ (h.logged t x ht w hw)
  cases e with
  | begin t => exact h.addLog (by simp)
  | write t w =>
      cases ht : db.txns t with
      | none => simpa [Db.apply, ht] using h
      | some x =>
          simp only [Db.apply, ht]
          have hnew : (t, w.op) ∈ slotLog w.loc
              (db.log ++ [⟨first + db.log.length, t, x.prevLsn, .write w⟩]) := by
            rw [slotLog_snoc_write rfl, if_pos rfl]
            exact List.mem_append_right _ (List.mem_singleton_self _)
          have hadd : VersionInv base
              (db.addLog first t { x with writeSet := w :: x.writeSet } (.write w)) := by
            refine h.addLog ?_
            intro v hv
            rcases List.mem_cons.1 hv with rfl | hv
            · exact hnew
            · exact hold ht v hv
          refine ⟨hadd.logged, fun loc => ?_⟩
          simp only [Write.redo_eq]
          by_cases hl : loc = w.loc
          · subst hl
            rw [Function.update_self]
            exact (hadd.compat w.loc).redo hnew
          · rw [Function.update_of_ne hl]
            exact hadd.compat loc
  | commit t =>
      cases ht : db.txns t with
      | none => simpa [Db.apply, ht] using h
      | some x =>
          simp only [Db.apply, ht]
          have hadd : VersionInv base
              (db.addLog first t { x with writeSet := [], phase := .committed } .commit) :=
            h.addLog (by simp)
          exact ⟨hadd.logged, hadd.compat⟩
  | abort t =>
      cases ht : db.txns t with
      | none => simpa [Db.apply, ht] using h
      | some x =>
          simp only [Db.apply, ht]
          exact h.addLog fun w hw => hold ht w hw
  | undo t =>
      rw [Db.apply]
      split
      · rename_i p w ws ph ht
        have hw := h.logged t _ ht w List.mem_cons_self
        refine ⟨h.logged.update fun v hv => h.logged t _ ht v (List.mem_cons_of_mem _ hv), fun loc => ?_⟩
        simp only [Write.undo_eq]
        by_cases hl : loc = w.loc
        · subst hl
          rw [Function.update_self]
          exact (h.compat w.loc).undo hw
        · rw [Function.update_of_ne hl]
          exact h.compat loc
      · exact h
  | release t =>
      cases ht : db.txns t with
      | none => simpa [Db.apply, ht] using h
      | some x =>
          simp only [Db.apply, ht]
          exact ⟨h.logged.update fun w hw => h.logged t x ht w hw, h.compat⟩

theorem VersionInv.applyAll (h : VersionInv base db) (es : List Event) :
    VersionInv base (db.applyAll first es) := by
  induction es generalizing db with
  | nil => exact h
  | cons e es ih => exact ih (h.apply e)

theorem compat_of_durable {es : List Event} {page : String × Int}
    (h : ∀ r ∈ ((Db.start base).applyAll first es).log, ∀ w, r.write? = some w → w.loc.page = page → r ∈ log)
    (hpage : loc.page = page) : Compat base log loc (((Db.start base).applyAll first es).store loc) := by
  refine (((versionInv_start base).applyAll es).compat loc).mono ?_
  intro p hp
  obtain ⟨r, hr, w, hw, hloc, rfl⟩ := mem_slotLog.1 hp
  exact mem_slotLog.2 ⟨r, h r hr w hw (by rw [hloc]; exact hpage), w, hw, hloc, rfl⟩

end Versions

section Recover

variable {κ : Type} {cat : Catalog κ} {base st disk : Store} {db : Db} {first : Lsn} {tab : String}

theorem checkTables_ok {log : List LogRecord}
    (h : ∀ r ∈ log, (∀ w, r.body = .write w → w.loc.table ∈ cat.tables) ∧ r.body ≠ .staticCheckpoint) :
    checkTables cat log = .ok () := by
  induction log with
  | nil => rfl
  | cons r log ih =>
      have hlog := ih fun x hx => h x (List.mem_cons_of_mem _ hx)
      obtain ⟨hw, hs⟩ := h r List.mem_cons_self
      rw [checkTables]
      cases hb : r.body with
      | begin | commit | abort => exact hlog
      | staticCheckpoint => exact absurd hb hs
      | write w =>
          simp only [hw w hb, if_true]
          exact hlog

/-- Who is undone: whoever the log does not show as committed. -/
theorem LogInv.mem_undoTxnList (h : LogInv cat first db) {t : TxnId} :
    t ∈ (readLog db.log).undoTxnList ↔ ∃ x, db.txns t = some x ∧ x.phase ≠ .committed := by
  rw [undoTxnList, List.mem_reverse, List.mem_filter, h.list t, h.undo t]
  cases ht : db.txns t with
  | none => simp
  | some x => by_cases hp : x.phase = .committed <;> simp [hp]

theorem LogInv.committed_iff (h : LogInv cat first db) {t : TxnId} {x : TxnLife} (ht : db.txns t = some x) :
    x.phase = .committed ↔ committed db.log t = true := by
  have hph := h.phase t
  rw [ht] at hph
  obtain ⟨p, ws, ph⟩ := x
  cases ph with
  | running | aborting | aborted => simp [hph.1]
  | committed => exact ⟨fun _ => hph, fun _ => rfl⟩

theorem LogInv.undone_not_winner (h : LogInv cat first db) {t : TxnId}
    (ht : t ∈ (readLog db.log).undoTxnList) :
    winner db.log t = false := by
  obtain ⟨x, hx, hp⟩ := h.mem_undoTxnList.1 ht
  cases hc : committed db.log t with
  | true => exact absurd ((h.committed_iff hx).2 hc) hp
  | false => rw [winner, hc, Bool.false_and]

theorem LogInv.covered (h : LogInv cat first db) (hno : NoOverwrite db.log) {loc : Loc} {e : TxnId × Op Bytes}
    (he : e ∈ slotLog loc db.log) (hW : winner db.log e.1 = false) : e.1 ∈ (readLog db.log).undoTxnList := by
  rw [h.mem_undoTxnList]
  cases hx : db.txns e.1 with
  | none => exact absurd rfl (h.no_entry hx e he)
  | some x =>
      refine ⟨x, rfl, fun hp => ?_⟩
      have hc := (h.committed_iff hx).1 hp
      cases ha : aborted db.log e.1 with
      | true =>
          have := hno.once loc e he ha
          rw [hc] at this
          cases this
      | false =>
          rw [winner, hc, ha] at hW
          cases hW

/-- Redo of everything and undo of the losers, slot by slot. -/
theorem LogInv.undoAll_redo (hl : LogInv cat first db) (disk : Store) (hfirst : 0 ≤ first)
    {order : List (String × Int)} (horder : (readLog db.log).RedoOrder order) :
    ∃ mid, (readLog db.log).undoAll (readLog db.log).undoTxnList
      ((readLog db.log).redo order disk) = .ok mid ∧
      ∀ loc, mid loc = (readLog db.log).undoTxnList.foldl
        (fun v t => undoAll (opsOf t (slotLog loc db.log)) v)
        (redoAll ((slotLog loc db.log).map Prod.snd) (disk loc)) := by
  have hrecs := hl.records
  have hpos : ∀ r ∈ (readLog db.log).logRecords, r.lsn ≠ invalidLsn := by
    intro r hr hc
    rw [hrecs] at hr
    have := (hl.lsns r hr).1
    rw [hc] at this
    exact absurd (hfirst.trans this) (by decide)
  have hchain : ∀ t ∈ (readLog db.log).undoTxnList, ∃ lsn, (readLog db.log).undoTxn.lookup t = some lsn ∧
      Linked lsn (recordsOf t (readLog db.log).logRecords).reverse := by
    intro t ht
    obtain ⟨x, hx, hp⟩ := hl.mem_undoTxnList.1 ht
    refine ⟨x.prevLsn, by simp [hl.undo t, hx, hp], ?_⟩
    rw [hrecs]
    exact hl.linked t x hx
  refine ⟨_, undoAll_linked (by rw [hrecs]; exact hl.sorted) hpos hchain, fun loc => ?_⟩
  rw [undo_slot, redo_slot horder, hrecs]

/-- Over any version of the pages that the log can be replayed over, that leaves what the winners
have written. -/
theorem undoAll_of_compat (hl : LogInv cat first db) (hd : DataInv cat base db) (hno : NoOverwrite db.log)
    (hfirst : 0 ≤ first) (hdisk : ∀ loc, Compat base db.log loc (disk loc)) {order : List (String × Int)}
    (horder : (readLog db.log).RedoOrder order) :
    (readLog db.log).undoAll (readLog db.log).undoTxnList ((readLog db.log).redo order disk) =
      .ok (effects (winner db.log) base db.log) := by
  obtain ⟨mid, hundo, hmid⟩ := hl.undoAll_redo disk hfirst horder
  have hstore : mid = effects (winner db.log) base db.log := by
    funext loc
    rw [hmid, effects_slot]
    refine replay_then_undo (fun e he hW => hl.covered hno he hW)
      (fun t ht => hl.undone_not_winner ht) (hdisk loc).1
      (hdisk loc).2 fun t ht => ?_
    rw [← effects_slot]
    exact hd.losers loc t (hl.undone_not_winner ht)
  rw [hundo, hstore]

variable [DecidableEq κ]

omit [DecidableEq κ] in
/-- A fold that keeps the keys it has seen changes no row of a table whose keys are unique. -/
theorem foldl_unique {key : Bytes → κ} {f : List κ × Store → Rid → List κ × Store}
    (hkey : key ∈ cat.indexes tab) (h : UniqueKeys cat tab st)
    (hnone : ∀ seen rid, st ⟨tab, rid⟩ = none → f (seen, st) rid = (seen, st))
    (hsome : ∀ seen rid row, st ⟨tab, rid⟩ = some row → key row ∉ seen →
      f (seen, st) rid = (key row :: seen, st))
    {rids : List Rid} {seen : List κ} (hnd : rids.Nodup)
    (hseen : ∀ k ∈ seen, ∃ r row, r ∉ rids ∧ st ⟨tab, r⟩ = some row ∧ key row = k) :
    (rids.foldl f (seen, st)).2 = st := by
  induction rids generalizing seen with
  | nil => rfl
  | cons rid rids ih =>
      obtain ⟨hnot, hnd⟩ := List.nodup_cons.1 hnd
      have hseen' : ∀ k ∈ seen, ∃ r row, r ∉ rids ∧ st ⟨tab, r⟩ = some row ∧ key row = k := by
        intro k hk
        obtain ⟨r, row, hr, hrow⟩ := hseen k hk
        exact ⟨r, row, fun hc => hr (List.mem_cons_of_mem _ hc), hrow⟩
      rw [List.foldl_cons]
      cases hrow : st ⟨tab, rid⟩ with
      | none =>
          rw [hnone seen rid hrow]
          exact ih hnd hseen'
      | some row =>
          have hfresh : key row ∉ seen := by
            intro hin
            obtain ⟨r, row', hr, hrow', hk⟩ := hseen _ hin
            refine hr ?_
            rw [h key hkey r rid row' row hrow' hrow hk]
            exact List.mem_cons_self
          rw [hsome seen rid row hrow hfresh]
          refine ih hnd fun k hk => ?_
          rcases List.mem_cons.1 hk with rfl | hk
          · exact ⟨rid, row, hnot, hrow, rfl⟩
          · exact hseen' k hk

/-- Where the keys are unique, no row is deleted while the index is built. -/
theorem createIndexRows_unique {key : Bytes → κ} (hkey : key ∈ cat.indexes tab) (h : UniqueKeys cat tab st) :
    createIndexRows cat tab key st = st := by
  refine foldl_unique hkey h (fun seen rid hrow => ?_) (fun seen rid row hrow hfresh => ?_)
    (cat.nodup tab) (by simp)
  · simp only [hrow]
  · simp only [hrow, hfresh, if_false]

theorem rebuildIndexes_unique (h : ∀ tab, UniqueKeys cat tab st) : rebuildIndexes cat st = st := by
  have hinner : ∀ (tab : String) (keys : List (Bytes → κ)), (∀ key ∈ keys, key ∈ cat.indexes tab) →
      keys.foldl (fun st key => createIndexRows cat tab key st) st = st := by
    intro tab keys
    induction keys with
    | nil => intros; rfl
    | cons key keys ih =>
        intro hk
        rw [List.foldl_cons, createIndexRows_unique (hk key List.mem_cons_self) (h tab)]
        exact ih fun key' hkey' => hk key' (List.mem_cons_of_mem _ hkey')
  have houter : ∀ tabs : List String,
      tabs.foldl (fun st t => (cat.indexes t).foldl (fun st key => createIndexRows cat t key st) st) st =
        st := by
    intro tabs
    induction tabs with
    | nil => rfl
    | cons tab tabs ih =>
        rw [List.foldl_cons, hinner tab _ fun _ hk => hk]
        exact ih
  exact houter cat.tables

theorem recover_of_compat (hl : LogInv cat first db) (hd : DataInv cat base db) (hno : NoOverwrite db.log)
    (hfirst : 0 ≤ first) (hdisk : ∀ loc, Compat base db.log loc (disk loc)) {order : List (String × Int)}
    (horder : (readLog db.log).RedoOrder order) :
    recover cat order db.log disk = .ok (effects (winner db.log) base db.log) := by
  rw [recover, analyze, hl.records, checkTables_ok hl.tables]
  change RecoveryManager.undo _ _ _ = _
  rw [RecoveryManager.undo, undoAll_of_compat hl hd hno hfirst hdisk horder]
  change (if _ then _ else _) = _
  split
  · rfl
  · rw [rebuildIndexes_unique hd.unique]
    rfl

end Recover

/-- A crash: how many records of the log are durable, and which version of each page,
counted in steps of the history, is on disk. -/
structure Crash where
  durable : Nat
  version : String × Int → Nat

namespace Crash

variable (c : Crash) (first : Lsn) (base : Store) (es : List Event)

def log : List LogRecord := ((Db.start base).applyAll first es).log.take c.durable

def disk : Store := fun loc => ((Db.start base).applyAll first (es.take (c.version loc.page))).store loc

/-- The records of a page's version on disk are durable. -/
def WriteAhead : Prop :=
  ∀ page, ∀ r ∈ ((Db.start base).applyAll first (es.take (c.version page))).log, ∀ w, r.write? = some w →
    w.loc.page = page → r ∈ c.log first base es

variable {c first base es}

theorem disk_compat (h : c.WriteAhead first base es) (loc : Loc) :
    Compat base (c.log first base es) loc (c.disk first base es loc) :=
  compat_of_durable (h loc.page) rfl

end Crash

section Example

def oneTable : Catalog Unit where
  tables := ["t"]
  slots _ := [⟨1, 0⟩]
  nodup _ := List.nodup_singleton _
  indexes _ := []

def slot : Loc := ⟨"t", ⟨1, 0⟩⟩

def nextSlot : Loc := ⟨"t", ⟨1, 1⟩⟩

def slotHolds (v : Bytes) : Store := Function.update (fun _ => none) slot (some v)

theorem oneTable_unique (tab : String) (st : Store) : UniqueKeys oneTable tab st := by
  intro key hkey
  cases hkey

theorem redoOrder_singleton {a : RecoveryManager} (ws : List Write) {page : String × Int}
    (hws : a.logRecords.filterMap LogRecord.write? = ws) (hne : ws ≠ [])
    (hpage : ∀ w ∈ ws, w.loc.page = page) :
    a.RedoOrder [page] := by
  refine ⟨List.nodup_singleton _, fun p => ?_⟩
  rw [List.mem_singleton, redoLogs, hws, Ne, List.filter_eq_nil_iff]
  constructor
  · rintro rfl hall
    obtain ⟨w, hw⟩ := List.exists_mem_of_ne_nil ws hne
    exact hall w hw (by simpa using hpage w hw)
  · intro hex
    by_contra hp
    refine hex fun w hw => ?_
    rw [decide_eq_true_eq, hpage w hw]
    exact Ne.symm hp

end Example

section Histories

variable {κ : Type} {cat : Catalog κ} {base : Store} {first : Lsn} {es : List Event} {c : Crash}

theorem crash_inv (hbase : ∀ tab, UniqueKeys cat tab base) (hrun : Db.LegalRun cat first (Db.start base) es)
    (hno : NoOverwrite (c.log first base es)) :
    ∃ db, db.log = c.log first base es ∧ LogInv cat first db ∧ DataInv cat base db := by
  obtain ⟨m, hm⟩ : ∃ m, ((Db.start base).applyAll first (es.take m)).log = c.log first base es :=
    Db.exists_log_take (Nat.zero_le c.durable)
  rw [← hm] at hno
  exact ⟨_, hm, inv_run (logInv_start base) (dataInv_start hbase) (hrun.take m) hno⟩

/-- Every history and every crash whose durable log passes: what recovery leaves is what
the transactions that committed, and did not abort, have written. -/
theorem recover_crash [DecidableEq κ] (hfirst : 0 ≤ first) (hbase : ∀ tab, UniqueKeys cat tab base)
    (hrun : Db.LegalRun cat first (Db.start base) es) (hwal : c.WriteAhead first base es)
    (hno : NoOverwrite (c.log first base es)) {order : List (String × Int)}
    (horder : (readLog (c.log first base es)).RedoOrder order) :
    recover cat order (c.log first base es) (c.disk first base es) =
      .ok (effects (winner (c.log first base es)) base (c.log first base es)) := by
  obtain ⟨db, hlog, hl, hd⟩ := crash_inv hbase hrun hno
  have hdisk := Crash.disk_compat hwal
  rw [← hlog] at hno hdisk horder ⊢
  exact recover_of_compat hl hd hno hfirst hdisk horder

theorem aborted_applyAll (hes : ∀ e ∈ es, ∀ t, e ≠ .abort t) (db : Db) (t : TxnId) :
    aborted (db.applyAll first es).log t = aborted db.log t := by
  induction es generalizing db with
  | nil => rfl
  | cons e es ih =>
      have hstep : aborted (db.apply first e).log t = aborted db.log t := by
        cases e with
        | abort u => exact absurd rfl (hes _ List.mem_cons_self u)
        | begin u => simp [Db.apply, Db.addLog, aborted_append, LogBody.isAbort]
        | write u w =>
            cases hu : db.txns u <;> simp [Db.apply, hu, Db.addLog, aborted_append, LogBody.isAbort]
        | commit u =>
            cases hu : db.txns u <;>
              simp [Db.apply, hu, Db.addLog, Db.unlockAll, aborted_append, LogBody.isAbort]
        | undo u =>
            rw [Db.apply]
            split <;> rfl
        | release u =>
            cases hu : db.txns u <;> simp [Db.apply, hu, Db.unlockAll]
      rw [← hstep]
      exact ih (fun x hx => hes x (List.mem_cons_of_mem _ hx)) _

/-- `0` commits, `1` has not finished; everything is on disk. -/
def commitThenCrash : List Event :=
  [.begin 0, .write 0 ⟨slot, .set [0] [1]⟩, .commit 0, .begin 1, .write 1 ⟨slot, .set [1] [2]⟩]

/-- What the last of the selected transactions to write the slot has left there. -/
def lastWrite (W : TxnId → Bool) (base : Store) (log : List LogRecord) (loc : Loc) : Option Bytes :=
  match ((slotLog loc log).filter fun e => W e.1).getLast? with
  | none => base loc
  | some e => e.2.after

theorem effects_lastWrite {W : TxnId → Bool} {log : List LogRecord} {loc : Loc}
    (h : LegalFrom (base loc) (opsWith W (slotLog loc log))) :
    effects W base log loc = lastWrite W base log loc := by
  rw [effects_slot, lastWrite]
  rw [opsWith] at h ⊢
  rcases List.eq_nil_or_concat ((slotLog loc log).filter fun e => W e.1) with hnil | ⟨l, e, hl⟩
  · rw [hnil]
    rfl
  · rw [List.concat_eq_append] at hl
    rw [hl, List.map_append, List.map_singleton] at h
    rw [hl, List.map_append, List.map_singleton, redoAll_legal h, List.getLast?_concat]

/-- `0` commits, then `1` overwrites its record and aborts. -/
def commitThenAbort : List Event :=
  [.begin 0, .write 0 ⟨slot, .set [0] [2]⟩, .commit 0, .begin 1, .write 1 ⟨slot, .set [2] [1]⟩, .abort 1,
    .undo 1, .release 1]

/-- `0` updates a record and aborts, then `1` updates it and commits. -/
def abortThenCommit : List Event :=
  [.begin 0, .write 0 ⟨slot, .set [0] [1]⟩, .abort 0, .undo 0, .release 0, .begin 1,
    .write 1 ⟨slot, .set [0] [2]⟩, .commit 1]

end Histories

end Rmdb
