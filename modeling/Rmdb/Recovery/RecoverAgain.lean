import Mathlib.Logic.Relation
import Rmdb.Recovery.Rebuild

namespace Rmdb

open RecoveryManager Slot

namespace RecoveryManager

variable (a : RecoveryManager)

def chainWrites : Nat → Lsn → Except RecoveryError (List Write)
  | 0, _ => .error .outOfFuel
  | fuel + 1, lsn =>
      match a.logRecords.find? (fun r => r.lsn = lsn) with
      | none => .ok []
      | some r => do
          let ws ← chainWrites fuel r.prevLsn
          return r.write?.toList ++ ws

def undoWrites : List TxnId → Except RecoveryError (List Write)
  | [] => .ok []
  | t :: ts => do
      let ws ← a.chainWrites (a.logRecords.length + 1) ((a.undoTxn.lookup t).getD invalidLsn)
      let vs ← undoWrites ts
      return ws ++ vs

variable {a : RecoveryManager} {fuel : Nat} {lsn : Lsn} {st : Store} {ts : List TxnId} {ws : List Write}

/-- Which writes are taken back does not depend on the records of the tables. -/
theorem undoChain_eq (a : RecoveryManager) (fuel : Nat) (lsn : Lsn) (st : Store) :
    a.undoChain fuel lsn st = (a.chainWrites fuel lsn).map fun ws => ws.foldl (fun st w => w.undo st) st := by
  induction fuel generalizing lsn st with
  | zero => rfl
  | succ fuel ih =>
      rw [undoChain, chainWrites]
      cases hr : a.logRecords.find? (fun r => r.lsn = lsn) with
      | none => rfl
      | some r =>
          simp only [ih]
          cases hb : r.body <;> cases a.chainWrites fuel r.prevLsn <;>
            simp [LogRecord.write?, hb, Except.map, bind, Except.bind, pure, Except.pure]

theorem undoAll_eq (a : RecoveryManager) (ts : List TxnId) (st : Store) :
    a.undoAll ts st = (a.undoWrites ts).map fun ws => ws.foldl (fun st w => w.undo st) st := by
  induction ts generalizing st with
  | nil => rfl
  | cons t ts ih =>
      rw [undoAll, undoWrites, undoChain_eq]
      cases a.chainWrites (a.logRecords.length + 1) ((a.undoTxn.lookup t).getD invalidLsn) with
      | error e => rfl
      | ok ws =>
          refine (ih _).trans ?_
          cases a.undoWrites ts with
          | error e => rfl
          | ok vs => exact congrArg Except.ok (List.foldl_append).symm

theorem mem_chainWrites (h : a.chainWrites fuel lsn = .ok ws) :
    ∀ w ∈ ws, ∃ r ∈ a.logRecords, r.write? = some w := by
  induction fuel generalizing lsn ws with
  | zero => cases h
  | succ fuel ih =>
      rw [chainWrites] at h
      cases hr : a.logRecords.find? (fun r => r.lsn = lsn) with
      | none =>
          rw [hr] at h
          cases h
          exact nofun
      | some r =>
          simp only [hr] at h
          cases hvs : a.chainWrites fuel r.prevLsn with
          | error e =>
              rw [hvs] at h
              cases h
          | ok vs =>
              rw [hvs] at h
              cases h
              intro w hw
              rcases List.mem_append.1 hw with hw | hw
              · exact ⟨r, List.mem_of_find?_eq_some hr, Option.mem_toList.1 hw⟩
              · exact ih hvs w hw

theorem mem_undoWrites (h : a.undoWrites ts = .ok ws) : ∀ w ∈ ws, ∃ r ∈ a.logRecords, r.write? = some w := by
  induction ts generalizing ws with
  | nil =>
      cases h
      exact nofun
  | cons t ts ih =>
      rw [undoWrites] at h
      cases hvs : a.chainWrites (a.logRecords.length + 1) ((a.undoTxn.lookup t).getD invalidLsn) with
      | error e =>
          rw [hvs] at h
          cases h
      | ok vs =>
          cases hus : a.undoWrites ts with
          | error e =>
              rw [hvs, hus] at h
              cases h
          | ok us =>
              rw [hvs, hus] at h
              cases h
              intro w hw
              rcases List.mem_append.1 hw with hw | hw
              · exact mem_chainWrites hvs w hw
              · exact ih hus w hw

theorem exists_redoOrder (a : RecoveryManager) : ∃ order, a.RedoOrder order := by
  refine ⟨((a.logRecords.filterMap LogRecord.write?).map fun w => w.loc.page).dedup,
    List.nodup_dedup _, fun page => ?_⟩
  rw [List.mem_dedup, List.mem_map, redoLogs, Ne, List.filter_eq_nil_iff]
  push Not
  simp only [decide_eq_true_eq]

end RecoveryManager

section Replayed

variable {κ : Type} {cat cat' : Catalog κ} {log : List LogRecord} {disk disk' mid : Store} {loc : Loc}
  {order : List (String × Int)}

def replayed (cat : Catalog κ) (log : List LogRecord) (disk : Store) : Except RecoveryError Store := do
  let a ← analyze cat log
  let ws ← a.undoWrites a.undoTxnList
  return fun loc => undoAll (opsAt loc ws).reverse
    (redoAll ((slotLog loc a.logRecords).map Prod.snd) (disk loc))

def Rebuilds (log : List LogRecord) : Prop := ¬ ((readLog log).redoTxn = [] ∧ (readLog log).undoTxn = [])

theorem replayed_eq (hcheck : checkTables cat (readLog log).logRecords = .ok ())
    (horder : (readLog log).RedoOrder order) :
    replayed cat log disk = (readLog log).undoAll (readLog log).undoTxnList
      ((readLog log).redo order disk) := by
  rw [replayed, analyze, hcheck, undoAll_eq]
  change ((readLog log).undoWrites (readLog log).undoTxnList >>= fun ws => _) = _
  cases (readLog log).undoWrites (readLog log).undoTxnList with
  | error e => rfl
  | ok ws =>
      refine congrArg Except.ok (funext fun loc => ?_)
      simp only [undo_writes, redo_slot horder]

theorem recover_eq [DecidableEq κ] (horder : (readLog log).RedoOrder order) :
    recover cat order log disk = (replayed cat log disk).map fun mid =>
      if (readLog log).redoTxn = [] ∧ (readLog log).undoTxn = [] then mid else rebuildIndexes cat mid := by
  cases hcheck : checkTables cat (readLog log).logRecords with
  | error e => rw [recover, replayed, analyze, hcheck]; rfl
  | ok _ =>
      rw [replayed_eq hcheck horder, recover, analyze, hcheck]
      change RecoveryManager.undo _ _ _ = _
      rw [RecoveryManager.undo]
      cases (readLog log).undoAll (readLog log).undoTxnList ((readLog log).redo order disk) with
      | error e => rfl
      | ok mid =>
          change (if _ then _ else _) = Except.ok (if _ then _ else _)
          split <;> rfl

theorem Compat.redoAll {base : Store} {v : Option Bytes} {os : List (Op Bytes)} (h : Compat base log loc v)
    (hos : ∀ o ∈ os, ∃ t, (t, o) ∈ slotLog loc log) : Compat base log loc (redoAll os v) := by
  induction os generalizing v with
  | nil => exact h
  | cons o os ih =>
      obtain ⟨t, ht⟩ := hos o List.mem_cons_self
      exact ih (h.redo ht) fun p hp => hos p (List.mem_cons_of_mem _ hp)

theorem Compat.undoAll {base : Store} {v : Option Bytes} {os : List (Op Bytes)} (h : Compat base log loc v)
    (hos : ∀ o ∈ os, ∃ t, (t, o) ∈ slotLog loc log) : Compat base log loc (undoAll os v) := by
  induction os with
  | nil => exact h
  | cons o os ih =>
      obtain ⟨t, ht⟩ := hos o List.mem_cons_self
      exact (ih fun p hp => hos p (List.mem_cons_of_mem _ hp)).undo ht

theorem checkTables_congr (h : cat'.tables = cat.tables) (log : List LogRecord) :
    checkTables cat' log = checkTables cat log := by
  induction log with
  | nil => rfl
  | cons r log ih =>
      rw [checkTables, checkTables, ih, h]

theorem replayed_ok : replayed cat log disk = .ok mid ↔ checkTables cat (readLog log).logRecords = .ok () ∧
    ∃ ws, (readLog log).undoWrites (readLog log).undoTxnList = .ok ws ∧
      mid = fun loc => undoAll (opsAt loc ws).reverse
        (redoAll ((slotLog loc (readLog log).logRecords).map Prod.snd) (disk loc)) := by
  rw [replayed, analyze]
  cases checkTables cat (readLog log).logRecords with
  | error e => exact iff_of_false (by rintro ⟨⟩) fun h => by cases h.1
  | ok u =>
      change ((readLog log).undoWrites (readLog log).undoTxnList >>= fun ws => _) = _ ↔ _
      cases (readLog log).undoWrites (readLog log).undoTxnList with
      | error e =>
          refine iff_of_false (by rintro ⟨⟩) ?_
          rintro ⟨-, _, ⟨⟩, -⟩
      | ok ws =>
          constructor
          · rintro ⟨rfl⟩
            exact ⟨rfl, ws, rfl, rfl⟩
          · rintro ⟨-, _, ⟨rfl⟩, rfl⟩
            rfl

/-- Replay comes to the same over every version of the pages that agrees with the first one where
the log does not decide. -/
theorem replayed_compat (h : replayed cat log disk = .ok mid) :
    (∀ loc, Compat disk (readLog log).logRecords loc (mid loc)) ∧
      ∀ (cat' : Catalog κ) disk', cat'.tables = cat.tables →
        (∀ loc, Compat disk (readLog log).logRecords loc (disk' loc)) →
          replayed cat' log disk' = .ok mid := by
  obtain ⟨hcheck, ws, hws, rfl⟩ := replayed_ok.1 h
  refine ⟨fun loc => ?_, fun cat' disk' htab hdisk' => replayed_ok.2 ⟨?_, ws, hws, funext fun loc => ?_⟩⟩
  · refine Compat.undoAll (Compat.redoAll ⟨fun _ => rfl, fun _ => rfl⟩ fun o ho => ?_) fun o ho => ?_
    · obtain ⟨e, he, rfl⟩ := List.mem_map.1 ho
      exact ⟨e.1, he⟩
    · obtain ⟨w, hw, rfl⟩ := List.mem_map.1 (List.mem_reverse.1 ho)
      obtain ⟨hw, hloc⟩ := List.mem_filter.1 hw
      obtain ⟨r, hr, hrw⟩ := mem_undoWrites hws w hw
      exact ⟨r.logTid, mem_slotLog.2 ⟨r, hr, w, hrw, by simpa using hloc, rfl⟩⟩
  · rw [checkTables_congr htab]
    exact hcheck
  · congr 1
    obtain ⟨hnil, hset⟩ := hdisk' loc
    refine (redoAll_compat (fun h => hnil (List.map_eq_nil_iff.1 h)) fun h => hset fun e he => ?_).symm
    exact h e.2 (List.mem_map_of_mem he)

end Replayed

section Unique

variable {κ : Type} {cat : Catalog κ} {slots : List Rid} {t : String} {st : Store}
  {built : List (Bytes → κ)} {key : Bytes → κ} {r : Rid}

/-- In no table does a row repeat the key of an earlier one in an index. -/
def NoRepeats (cat : Catalog κ) (st : Store) : Prop :=
  ∀ t ∈ cat.tables, ∀ key ∈ cat.indexes t, ∀ r, ¬ Repeats (cat.slots t) t key st r

theorem survives_of_unique (h : ∀ key ∈ built, ∀ r, ¬ Repeats slots t key st r) :
    Survives slots t st built r := by
  induction built generalizing r with
  | nil => trivial
  | cons key built ih =>
      have hrest := fun key' hkey' => h key' (List.mem_cons_of_mem _ hkey')
      refine ⟨ih hrest, fun r' row row' hsub _ hrow' hrow hkey => ?_⟩
      exact h key List.mem_cons_self r ⟨r', row, row', hsub, hrow', hrow, hkey⟩

theorem unique_of_survive (hall : ∀ r, st ⟨t, r⟩ ≠ none → Survives slots t st built r) (hkey : key ∈ built) :
    ¬ Repeats slots t key st r := by
  induction built with
  | nil => cases hkey
  | cons k built ih =>
      rcases List.mem_cons.1 hkey with rfl | hkey
      · rintro ⟨r', row, row', hsub, hrow', hrow, heq⟩
        have hr' := (hall r' (by rw [hrow']; nofun)).1
        exact (hall r (by rw [hrow]; nofun)).2 r' row row' hsub hr' hrow' hrow heq
      · exact ih (fun r hr => (hall r hr).1) hkey

theorem noRepeats_iff [DecidableEq κ] (htabs : cat.tables.Nodup) :
    NoRepeats cat st ↔ rebuildIndexes cat st = st := by
  constructor
  · intro h
    funext loc
    refine (rebuildIndexes_spec htabs).2 ?_
    by_cases htab : loc.table ∈ cat.tables
    · exact .inl (survives_of_unique fun key hkey => h loc.table htab key (List.mem_reverse.1 hkey))
    · exact .inr htab
  · intro h t ht key hkey r
    refine unique_of_survive (fun r hr => ?_) (List.mem_reverse.2 hkey)
    by_contra hgone
    refine hr ?_
    have hnone : rebuildIndexes cat st ⟨t, r⟩ = none := (rebuildIndexes_spec htabs).1 ht hgone
    rw [h] at hnone
    exact hnone

end Unique

section Again

variable {κ : Type} [DecidableEq κ]

/-- What recovery of a directory makes of its pages on the way: logged writes are redone and taken
back, and while the indexes are created again each slot is as it was before that or as it will
be. -/
inductive Passes (cat : Catalog κ) (order : List (String × Int)) (log : List LogRecord)
    (disk : Store) : Store → Prop
  | start : Passes cat order log disk disk
  | redo {st : Store} {r : LogRecord} {w : Write} (h : Passes cat order log disk st)
      (hr : r ∈ (readLog log).logRecords)
      (hw : r.write? = some w) : Passes cat order log disk (w.redo st)
  | undo {st : Store} {r : LogRecord} {w : Write} (h : Passes cat order log disk st)
      (hr : r ∈ (readLog log).logRecords)
      (hw : r.write? = some w) : Passes cat order log disk (w.undo st)
  | rebuild {mid fin st : Store} (hmid : replayed cat log disk = .ok mid)
      (hfin : recover cat order log disk = .ok fin)
      (hst : ∀ loc, st loc = mid loc ∨ st loc = fin loc) : Passes cat order log disk st

def Catalog.withIndexes (cat : Catalog κ) (t : String) (keys : List (Bytes → κ)) : Catalog κ :=
  { cat with indexes := Function.update cat.indexes t keys }

/-- `drop_index` and `create_index` write the list of the table's indexes to the meta file: an
index leaves it at the front and comes back at its end. -/
inductive MidRebuild (cat : Catalog κ) : Catalog κ → Prop
  | dropped {t : String} {done rest : List (Bytes → κ)} {key : Bytes → κ} (ht : t ∈ cat.tables)
      (hkeys : cat.indexes t = done ++ key :: rest) : MidRebuild cat (cat.withIndexes t (rest ++ done))
  | created {t : String} {done rest : List (Bytes → κ)} {key : Bytes → κ} (ht : t ∈ cat.tables)
      (hkeys : cat.indexes t = done ++ key :: rest) : MidRebuild cat
        (cat.withIndexes t (rest ++ done ++ [key]))

/-- Recovery of a directory, its meta file and its pages, stops at some step and leaves another
one. Any version of a page can be on disk. -/
structure Interrupted (log : List LogRecord) (dir dir' : Catalog κ × Store) : Prop where
  pages : ∃ order, (readLog log).RedoOrder order ∧ ∀ page, ∃ v, Passes dir.1 order log dir.2 v ∧
    ∀ loc, loc.page = page → dir'.2 loc = v loc
  indexes : dir'.1 = dir.1 ∨ Rebuilds log ∧ MidRebuild dir.1 dir'.1

def SameFrom (R : Catalog κ × Store → Catalog κ × Store → Prop) (cat : Catalog κ) (log : List LogRecord)
    (disk : Store) : Prop :=
  ∀ order st, (readLog log).RedoOrder order → recover cat order log disk = .ok st → ∀ dir, R (cat, disk) dir →
    ∀ order', (readLog log).RedoOrder order' → recover dir.1 order' log dir.2 = .ok st

/-- Recovery can be interrupted, run again, interrupted again and so on. -/
def Repeatable (cat : Catalog κ) (log : List LogRecord) (disk : Store) : Prop :=
  SameFrom (Relation.ReflTransGen (Interrupted log)) cat log disk

def ReplaysUnique (cat : Catalog κ) (log : List LogRecord) (disk : Store) : Prop :=
  ∀ mid, replayed cat log disk = .ok mid → Rebuilds log → NoRepeats cat mid

structure SubCatalog (cat cat' : Catalog κ) : Prop where
  tables : cat'.tables = cat.tables
  slots : cat'.slots = cat.slots
  indexes : ∀ t, cat'.indexes t ⊆ cat.indexes t

variable {cat cat' : Catalog κ} {log : List LogRecord} {disk disk' mid v : Store}
  {order : List (String × Int)} {loc : Loc} {t : String} {keys : List (Bytes → κ)}

omit [DecidableEq κ] in
theorem indexes_withIndexes (cat : Catalog κ) (t : String) (keys : List (Bytes → κ)) :
    (cat.withIndexes t keys).indexes = Function.update cat.indexes t keys := rfl

omit [DecidableEq κ] in
theorem SubCatalog.withIndexes (h : SubCatalog cat cat') (hkeys : keys ⊆ cat'.indexes t) :
    SubCatalog cat (cat'.withIndexes t keys) := by
  refine ⟨h.tables, h.slots, fun u => ?_⟩
  by_cases hu : u = t
  · subst hu
    rw [indexes_withIndexes, Function.update_self]
    exact fun key hkey => h.indexes u (hkeys hkey)
  · rw [indexes_withIndexes, Function.update_of_ne hu]
    exact h.indexes u

omit [DecidableEq κ] in
theorem SubCatalog.midRebuild {cat'' : Catalog κ} (h : SubCatalog cat cat') (hmid : MidRebuild cat' cat'') :
    SubCatalog cat cat'' := by
  cases hmid with
  | dropped ht hkeys =>
      refine h.withIndexes ?_
      rw [hkeys]
      intro key hkey
      simp only [List.mem_append, List.mem_cons] at hkey ⊢
      tauto
  | created ht hkeys =>
      refine h.withIndexes ?_
      rw [hkeys]
      intro key hkey
      simp only [List.mem_append, List.mem_cons, List.not_mem_nil, or_false] at hkey ⊢
      tauto

omit [DecidableEq κ] in
theorem NoRepeats.mono (h : NoRepeats cat mid) (hsub : SubCatalog cat cat') : NoRepeats cat' mid := by
  intro t ht key hkey r
  rw [hsub.slots]
  exact h t (hsub.tables ▸ ht) key (hsub.indexes t hkey) r

theorem recover_of_unique (htabs : cat.tables.Nodup) (hmid : replayed cat log disk = .ok mid)
    (huniq : Rebuilds log → NoRepeats cat mid) (hsub : SubCatalog cat cat')
    (hdisk : ∀ loc, Compat disk (readLog log).logRecords loc (disk' loc))
    (horder : (readLog log).RedoOrder order) :
    recover cat' order log disk' = .ok mid := by
  rw [recover_eq horder, (replayed_compat hmid).2 cat' disk' hsub.tables hdisk]
  change Except.ok (if _ then _ else _) = _
  by_cases hreb : (readLog log).redoTxn = [] ∧ (readLog log).undoTxn = []
  · rw [if_pos hreb]
  · have hnodup : cat'.tables.Nodup := hsub.tables.symm ▸ htabs
    rw [if_neg hreb, (noRepeats_iff hnodup).1 ((huniq hreb).mono hsub)]

theorem Passes.compat (h : Passes cat' order log disk' v) (htabs : cat.tables.Nodup)
    (hmid : replayed cat log disk = .ok mid) (huniq : Rebuilds log → NoRepeats cat mid)
    (hsub : SubCatalog cat cat') (hdisk : ∀ loc, Compat disk (readLog log).logRecords loc (disk' loc))
    (horder : (readLog log).RedoOrder order) (loc : Loc) :
    Compat disk (readLog log).logRecords loc (v loc) := by
  induction h generalizing loc with
  | start => exact hdisk loc
  | redo _ hr hw ih =>
      rename_i w _
      rw [Write.redo_eq]
      by_cases hloc : loc = w.loc
      · subst hloc
        rw [Function.update_self]
        exact (ih _).redo (mem_slotLog.2 ⟨_, hr, w, hw, rfl, rfl⟩)
      · rw [Function.update_of_ne hloc]
        exact ih loc
  | undo _ hr hw ih =>
      rename_i w _
      rw [Write.undo_eq]
      by_cases hloc : loc = w.loc
      · subst hloc
        rw [Function.update_self]
        exact (ih _).undo (mem_slotLog.2 ⟨_, hr, w, hw, rfl, rfl⟩)
      · rw [Function.update_of_ne hloc]
        exact ih loc
  | rebuild hmid' hfin hst =>
      rw [(replayed_compat hmid).2 cat' disk' hsub.tables hdisk] at hmid'
      rw [recover_of_unique htabs hmid huniq hsub hdisk horder] at hfin
      cases hmid'
      cases hfin
      rw [or_self_iff.1 (hst loc)]
      exact (replayed_compat hmid).1 loc

theorem repeatable_of_unique (htabs : cat.tables.Nodup) (huniq : ReplaysUnique cat log disk) :
    Repeatable cat log disk := by
  intro order st horder hrec dir hreach order' horder'
  rw [recover_eq horder] at hrec
  cases hmid : replayed cat log disk with
  | error e =>
      rw [hmid] at hrec
      cases hrec
  | ok mid =>
      have huniq := huniq mid hmid
      have hself : SubCatalog cat cat := ⟨rfl, rfl, fun _ => List.Subset.refl _⟩
      have hst := recover_of_unique htabs hmid huniq hself (fun _ => ⟨fun _ => rfl, fun _ => rfl⟩) horder
      rw [recover_eq horder, hrec] at hst
      cases hst
      have hinv : SubCatalog cat dir.1 ∧ ∀ loc, Compat disk (readLog log).logRecords loc (dir.2 loc) := by
        induction hreach with
        | refl => exact ⟨hself, fun _ => ⟨fun _ => rfl, fun _ => rfl⟩⟩
        | tail _ hstep ih =>
            obtain ⟨hsub, hdisk⟩ := ih
            obtain ⟨⟨order'', horder'', hpages⟩, hkeys⟩ := hstep
            refine ⟨?_, fun loc => ?_⟩
            · rcases hkeys with hkeys | ⟨-, hkeys⟩
              · rw [hkeys]
                exact hsub
              · exact hsub.midRebuild hkeys
            · obtain ⟨v, hv, hpage⟩ := hpages loc.page
              rw [hpage loc rfl]
              exact hv.compat htabs hmid huniq hsub hdisk horder'' loc
      exact recover_of_unique htabs hmid huniq hinv.1 hinv.2 horder'

/-- Recovery stops after it has dropped the first index of a table; no page is written. -/
theorem interrupted_drop (hreb : Rebuilds log) (ht : t ∈ cat.tables) {key : Bytes → κ}
    (hkeys : cat.indexes t = key :: keys) :
    Interrupted log (cat, disk) (cat.withIndexes t keys, disk) := by
  obtain ⟨order, horder⟩ := exists_redoOrder (readLog log)
  refine ⟨⟨order, horder, fun page => ⟨disk, .start, fun _ _ => rfl⟩⟩, .inr ⟨hreb, ?_⟩⟩
  have hdrop : MidRebuild cat (cat.withIndexes t (keys ++ [])) := .dropped ht hkeys
  rw [List.append_nil] at hdrop
  exact hdrop

/-- Again and again, until the table has no index. -/
theorem interrupted_table (hreb : Rebuilds log) (ht : t ∈ cat.tables) :
    Relation.ReflTransGen (Interrupted log) (cat, disk) (cat.withIndexes t [], disk) := by
  obtain ⟨keys, hkeys⟩ : ∃ keys, cat.indexes t = keys := ⟨_, rfl⟩
  induction keys generalizing cat with
  | nil =>
      have hsame : cat.withIndexes t [] = cat := by
        rw [Catalog.withIndexes, ← hkeys, Function.update_eq_self]
      rw [hsame]
  | cons key keys ih =>
      have hsame : (cat.withIndexes t keys).withIndexes t [] = cat.withIndexes t [] := by
        rw [Catalog.withIndexes, Catalog.withIndexes, Catalog.withIndexes, Function.update_idem]
      rw [← hsame]
      exact .head (interrupted_drop hreb ht hkeys) (ih ht (Function.update_self ..))

/-- In the end no table has an index. -/
theorem interrupted_tables (disk : Store) (hreb : Rebuilds log) (tabs : List String)
    (htabs : ∀ t ∈ tabs, t ∈ cat.tables) :
    ∃ cat', Relation.ReflTransGen (Interrupted log) (cat, disk) (cat', disk) ∧ SubCatalog cat cat' ∧
      ∀ t ∈ tabs, cat'.indexes t = [] := by
  induction tabs with
  | nil => exact ⟨cat, .refl, ⟨rfl, rfl, fun _ => List.Subset.refl _⟩, nofun⟩
  | cons t tabs ih =>
      obtain ⟨cat', hreach, hsub, hnone⟩ := ih fun u hu => htabs u (List.mem_cons_of_mem _ hu)
      have ht : t ∈ cat'.tables := hsub.tables ▸ htabs t List.mem_cons_self
      refine ⟨_, hreach.trans (interrupted_table hreb ht),
        hsub.withIndexes (List.nil_subset _), fun u hu => ?_⟩
      rw [indexes_withIndexes]
      by_cases hut : u = t
      · rw [hut, Function.update_self]
      · rw [Function.update_of_ne hut]
        exact hnone u ((List.mem_cons.1 hu).resolve_left hut)

theorem recover_rebuilds (hreb : Rebuilds log) (hmid : replayed cat log disk = .ok mid)
    (htab : cat'.tables = cat.tables) (horder : (readLog log).RedoOrder order) :
    recover cat' order log disk = .ok (rebuildIndexes cat' mid) := by
  rw [recover_eq horder, (replayed_compat hmid).2 cat' disk htab fun _ => ⟨fun _ => rfl, fun _ => rfl⟩]
  change Except.ok (if _ then _ else _) = _
  rw [if_neg hreb]

end Again

section Example

def twoIndexes : Catalog (Option UInt8) where
  tables := ["t"]
  slots _ := [⟨1, 0⟩, ⟨1, 1⟩, ⟨1, 2⟩]
  nodup _ := by decide
  indexes _ := [fun row => row[0]?, fun row => row[1]?]

def thirdSlot : Loc := ⟨"t", ⟨1, 2⟩⟩

def threeSlots (a b c : Option Bytes) : Store := fun loc =>
  if loc = slot then a else if loc = nextSlot then b else if loc = thirdSlot then c else none

theorem threeSlots_some {a b c : Option Bytes} {loc : Loc} {row : Bytes}
    (h : threeSlots a b c loc = some row) :
    (loc = slot ∧ a = some row) ∨ (loc = nextSlot ∧ b = some row) ∨ loc = thirdSlot ∧ c = some row := by
  rw [threeSlots] at h
  split at h
  · exact .inl ⟨‹_›, h⟩
  · split at h
    · exact .inr (.inl ⟨‹_›, h⟩)
    · split at h
      · exact .inr (.inr ⟨‹_›, h⟩)
      · cases h

theorem threeSlots_unique {a b c : Option Bytes}
    (h : ∀ i < 2, [a, b, c].Pairwise fun x y => ∀ row ∈ x, ∀ row' ∈ y, row[i]? ≠ row'[i]?) (tab : String) :
    UniqueKeys twoIndexes tab (threeSlots a b c) := by
  have hone : ∀ i < 2, ∀ r r' row row', threeSlots a b c ⟨tab, r⟩ = some row →
    threeSlots a b c ⟨tab, r'⟩ = some row' →
      row[i]? = row'[i]? → r = r' := by
    intro i hi r r' row row' hrow hrow' hkey
    have hp := h i hi
    simp only [List.pairwise_cons, List.mem_cons, List.not_mem_nil, or_false,
      forall_eq_or_imp, forall_eq] at hp
    obtain ⟨⟨hab, hac⟩, hbc, -⟩ := hp
    rcases threeSlots_some hrow with ⟨hr, hx⟩ | ⟨hr, hx⟩ | ⟨hr, hx⟩ <;>
      rcases threeSlots_some hrow' with ⟨hr', hy⟩ | ⟨hr', hy⟩ | ⟨hr', hy⟩
    · exact congrArg Loc.rid (hr.trans hr'.symm)
    · exact absurd hkey (hab row hx row' hy)
    · exact absurd hkey (hac row hx row' hy)
    · exact absurd hkey.symm (hab row' hy row hx)
    · exact congrArg Loc.rid (hr.trans hr'.symm)
    · exact absurd hkey (hbc row hx row' hy)
    · exact absurd hkey.symm (hac row' hy row hx)
    · exact absurd hkey.symm (hbc row' hy row hx)
    · exact congrArg Loc.rid (hr.trans hr'.symm)
  intro key hkey
  rcases List.mem_cons.1 hkey with rfl | hkey
  · exact hone 0 (by decide)
  · rw [List.mem_singleton.1 hkey]
    exact hone 1 (by decide)

/-- `0` changes both columns of a row and is rolled back; `1` changes them otherwise and inserts
two rows, which have the row's old values in one column each. -/
def abortThenReuse : List Event :=
  [.begin 0, .write 0 ⟨nextSlot, .set [1, 9] [5, 8]⟩, .abort 0, .undo 0, .release 0, .begin 1,
    .write 1 ⟨nextSlot, .set [1, 9] [6, 7]⟩, .write 1 ⟨slot, .put [2, 9]⟩,
    .write 1 ⟨thirdSlot, .put [1, 4]⟩, .commit 1]

theorem update_threeSlots {a b c : Option Bytes} (v : Option Bytes) :
    Function.update (threeSlots a b c) slot v = threeSlots v b c ∧
      Function.update (threeSlots a b c) nextSlot v = threeSlots a v c ∧
      Function.update (threeSlots a b c) thirdSlot v = threeSlots a b v := by
  have h₁ : nextSlot ≠ slot := by decide
  have h₂ : thirdSlot ≠ slot := by decide
  have h₃ : thirdSlot ≠ nextSlot := by decide
  refine ⟨funext fun loc => ?_, funext fun loc => ?_, funext fun loc => ?_⟩
  · by_cases h : loc = slot <;> simp [threeSlots, h]
  · by_cases h : loc = nextSlot <;> simp [threeSlots, h, h₁]
  · by_cases h : loc = thirdSlot <;> simp [threeSlots, h, h₂, h₃]

theorem abortThenReuse_legal :
    Db.LegalRun twoIndexes 0 (Db.start (threeSlots none (some [1, 9]) none)) abortThenReuse := by
  -- the rows after each write
  let w₁ : Write := ⟨nextSlot, .set [1, 9] [5, 8]⟩
  let w₂ : Write := ⟨nextSlot, .set [1, 9] [6, 7]⟩
  let w₃ : Write := ⟨slot, .put [2, 9]⟩
  let w₄ : Write := ⟨thirdSlot, .put [1, 4]⟩
  have h₁ : w₁.redo (threeSlots none (some [1, 9]) none) = threeSlots none (some [5, 8]) none :=
    (update_threeSlots _).2.1
  have h₂ : w₁.undo (threeSlots none (some [5, 8]) none) = threeSlots none (some [1, 9]) none :=
    (update_threeSlots _).2.1
  have h₃ : w₂.redo (threeSlots none (some [1, 9]) none) = threeSlots none (some [6, 7]) none :=
    (update_threeSlots _).2.1
  have h₄ : w₃.redo (threeSlots none (some [6, 7]) none) = threeSlots (some [2, 9]) (some [6, 7]) none :=
    (update_threeSlots _).1
  have h₅ : w₄.redo (threeSlots (some [2, 9]) (some [6, 7]) none) =
      threeSlots (some [2, 9]) (some [6, 7]) (some [1, 4]) :=
    (update_threeSlots _).2.2
  refine ⟨rfl, ⟨⟨_, rfl, rfl⟩, .inl rfl, rfl, List.mem_singleton_self _, ?_⟩, ⟨_, rfl, rfl⟩,
    ⟨_, rfl, rfl, nofun⟩, ⟨_, rfl, rfl, rfl⟩, rfl,
    ⟨⟨_, rfl, rfl⟩, .inl rfl, rfl, List.mem_singleton_self _, ?_⟩,
    ⟨⟨_, rfl, rfl⟩, .inr rfl, rfl, List.mem_singleton_self _, ?_⟩,
    ⟨⟨_, rfl, rfl⟩, .inr rfl, rfl, List.mem_singleton_self _, ?_⟩, ⟨_, rfl, .inl rfl⟩, trivial⟩
  · change UniqueKeys _ _ (w₁.redo (threeSlots none (some [1, 9]) none))
    rw [h₁]
    exact threeSlots_unique (by decide) _
  · change UniqueKeys _ _ (w₂.redo (w₁.undo (w₁.redo (threeSlots none (some [1, 9]) none))))
    rw [h₁, h₂, h₃]
    exact threeSlots_unique (by decide) _
  · change UniqueKeys _ _ (w₃.redo (w₂.redo (w₁.undo (w₁.redo (threeSlots none (some [1, 9]) none)))))
    rw [h₁, h₂, h₃, h₄]
    exact threeSlots_unique (by decide) _
  · change UniqueKeys _ _
      (w₄.redo (w₃.redo (w₂.redo (w₁.undo (w₁.redo (threeSlots none (some [1, 9]) none))))))
    rw [h₁, h₂, h₃, h₄, h₅]
    exact threeSlots_unique (by decide) _

def reuseLog : List LogRecord :=
  [⟨0, 0, -1, .begin⟩, ⟨1, 0, 0, .write ⟨nextSlot, .set [1, 9] [5, 8]⟩⟩, ⟨2, 0, 1, .abort⟩,
    ⟨3, 1, -1, .begin⟩, ⟨4, 1, 3, .write ⟨nextSlot, .set [1, 9] [6, 7]⟩⟩,
    ⟨5, 1, 4, .write ⟨slot, .put [2, 9]⟩⟩,
    ⟨6, 1, 5, .write ⟨thirdSlot, .put [1, 4]⟩⟩, ⟨7, 1, 6, .commit⟩]

theorem replayed_reuseLog (disk : Store) :
    ∃ mid, replayed twoIndexes reuseLog disk = .ok mid ∧ mid slot = some [2, 9] ∧
    mid nextSlot = (disk nextSlot).map (fun _ => [1, 9]) ∧ mid thirdSlot = some [1, 4] := by
  refine ⟨_, rfl, rfl, ?_, rfl⟩
  change Option.map _ (Option.map _ (Option.map _ (disk nextSlot))) = _
  rw [Option.map_map, Option.map_map]
  rfl

theorem before_of_sublist {r r' : Rid} (h : [r', r].Sublist (twoIndexes.slots "t")) :
    r' = slot.rid ∧ r ≠ slot.rid ∨ r' = nextSlot.rid ∧ r = thirdSlot.rid := by
  have hp : (twoIndexes.slots "t").Pairwise fun x y => x = slot.rid ∧ y ≠ slot.rid ∨
      x = nextSlot.rid ∧ y = thirdSlot.rid := by
    decide
  simpa using hp.sublist h

/-- The row in the second slot goes with the one that repeats its first byte, if it is there. -/
theorem rebuild_three {mid : Store} (hslot : mid slot = some [2, 9]) (hthird : mid thirdSlot = some [1, 4]) :
    (mid nextSlot = some [1, 9] →
      rebuildIndexes twoIndexes mid nextSlot = none ∧ rebuildIndexes twoIndexes mid thirdSlot = none) ∧
    (mid nextSlot = none → rebuildIndexes twoIndexes mid thirdSlot = some [1, 4]) := by
  have htabs : twoIndexes.tables.Nodup := List.nodup_singleton _
  refine ⟨fun hnext => ⟨?_, ?_⟩, fun hnext => ?_⟩
  · refine (rebuildIndexes_spec htabs).1 (List.mem_singleton_self _) fun hsurv => ?_
    refine hsurv.2 slot.rid [1, 9] [2, 9] (by decide) ⟨trivial, fun r' row row' hsub => ?_⟩ hslot hnext rfl
    rcases before_of_sublist hsub with ⟨-, h⟩ | ⟨-, h⟩
    · exact absurd rfl h
    · cases h
  · refine (rebuildIndexes_spec htabs).1 (List.mem_singleton_self _) fun hsurv => ?_
    exact hsurv.1.2 nextSlot.rid [1, 4] [1, 9] (by decide) trivial hnext hthird rfl
  · have hkeep : ∀ i < 2, ∀ r' row row', [r', thirdSlot.rid].Sublist (twoIndexes.slots "t") →
      mid ⟨"t", r'⟩ = some row' →
        mid thirdSlot = some row → row'[i]? ≠ row[i]? := by
      intro i hi r' row row' hsub hrow' hrow
      rcases before_of_sublist hsub with ⟨rfl, -⟩ | ⟨rfl, -⟩
      · cases hslot.symm.trans hrow'
        cases hthird.symm.trans hrow
        revert i
        decide
      · cases hnext.symm.trans hrow'
    refine ((rebuildIndexes_spec htabs).2 (.inl ⟨⟨trivial, ?_⟩, ?_⟩)).trans hthird
    · exact fun r' row row' hsub _ => hkeep 0 (by decide) r' row row' hsub
    · exact fun r' row row' hsub _ => hkeep 1 (by decide) r' row row' hsub

end Example

end Rmdb
