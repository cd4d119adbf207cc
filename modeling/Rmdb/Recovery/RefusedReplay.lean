import Rmdb.Recovery.RefusedInsert

namespace Rmdb

open RecoveryManager Slot

section Lives

variable {P P' : TxnId → Prop} {m m' : TxnId → Option TxnLife} {t : TxnId} {y z : TxnLife}

def SameLives (P : TxnId → Prop) (m m' : TxnId → Option TxnLife) : Prop :=
  ∀ t, (m' t).map TxnLife.phase = (m t).map TxnLife.phase ∧
    ∀ y z, m t = some y → m' t = some z → P t → z.writeSet = y.writeSet

theorem SameLives.mono (h : SameLives P m m') (hP : ∀ t, P' t → P t) : SameLives P' m m' :=
  fun t => ⟨(h t).1, fun y z hy hz ht => (h t).2 y z hy hz (hP t ht)⟩

theorem SameLives.absent (h : SameLives P m m') (ht : m t = none) : m' t = none := by
  have hph := (h t).1
  rw [ht] at hph
  exact Option.map_eq_none_iff.1 hph

theorem SameLives.present (h : SameLives P m m') (ht : m t = some y) :
    ∃ z, m' t = some z ∧ z.phase = y.phase ∧ (P t → z.writeSet = y.writeSet) := by
  have hph := (h t).1
  rw [ht] at hph
  obtain ⟨z, hz, hzy⟩ := Option.map_eq_some_iff.1 hph
  exact ⟨z, hz, hzy, (h t).2 y z ht hz⟩

theorem SameLives.update (h : SameLives P m m') (hph : z.phase = y.phase)
    (hws : P t → z.writeSet = y.writeSet) :
    SameLives P (Function.update m t (some y)) (Function.update m' t (some z)) := by
  intro u
  by_cases hu : u = t
  · subst hu
    rw [Function.update_self, Function.update_self]
    refine ⟨congrArg some hph, ?_⟩
    rintro _ _ ⟨rfl⟩ ⟨rfl⟩
    exact hws
  · rw [Function.update_of_ne hu, Function.update_of_ne hu]
    exact h u

end Lives

section Follow

variable {κ : Type} {cat : Catalog κ} {first : Lsn} {base : Store} {x : TryDb} {d : Db}
  {t : TxnId} {y z : TxnLife} {body : LogBody} {e : Event} {loc : Loc} {row : Bytes}

def Catalog.bare (cat : Catalog κ) : Catalog κ := { cat with indexes := fun _ => [] }

theorem Db.Legal.bare {db : Db} (h : db.Legal cat e) : db.Legal cat.bare e := by
  cases e with
  | write t w => exact ⟨h.1, h.2.1, h.2.2.1, h.2.2.2.1, nofun⟩
  | begin | commit | abort | undo | release => exact h

/-- The database `d` goes through the same history, except that it logs it when the row of a
refused INSERT is taken out. -/
structure Follows (first : Lsn) (x : TryDb) (d : Db) : Prop where
  store : d.store = x.db.store
  owner : d.owner = x.db.owner
  lives : SameLives x.Clean x.db.txns d.txns
  logs : LogsMatch x.refused x.db.log d.log
  empty : ∀ loc, (leftover x.refused x.db.log loc).isSome = true → x.db.store loc = none
  below : ∀ l ∈ x.refused, l < first + x.db.log.length
  clean : ∀ t, aborted x.db.log t = true → x.Clean t

theorem follows_start (base : Store) : Follows first (TryDb.start base) (Db.start base) where
  store := rfl
  owner := rfl
  lives _ := ⟨rfl, nofun⟩
  logs := ⟨fun _ => .nil, fun _ => rfl, fun _ => rfl⟩
  empty _ h := by cases h
  below _ h := by cases h
  clean _ h := by cases h

theorem Follows.addLog (h : Follows first x d) (hph : z.phase = y.phase)
    (hws : x.Clean t → z.writeSet = y.writeSet)
    (hput : ∀ w, body = .write w → (leftover x.refused x.db.log w.loc).isSome = true → ∃ v, w.op = .put v)
    (hclean : body.isAbort = true → x.Clean t) :
    Follows first ⟨x.db.addLog first t y body, x.refused⟩ (d.addLog first t z body) := by
  have hnew : first + (x.db.log.length : Int) ∉ x.refused := fun hin => (h.below _ hin).ne rfl
  have hold : ∀ u, TryDb.Clean ⟨x.db.addLog first t y body, x.refused⟩ u → x.Clean u :=
    fun u hu r hr => hu r (List.mem_append_left _ hr)
  have hkeep : ∀ u, x.Clean u → TryDb.Clean ⟨x.db.addLog first t y body, x.refused⟩ u := by
    intro u hu r hr hru
    rcases List.mem_append.1 hr with hr | hr
    · exact hu r hr hru
    · rw [List.mem_singleton.1 hr]
      exact hnew
  refine ⟨h.store, h.owner, ?_, ?_, ?_, ?_, ?_⟩
  · exact (h.lives.mono hold).update hph fun ht => hws (hold t ht)
  · exact h.logs.keep hnew rfl rfl fun w hw => hput w (body_of_write hw)
  · intro loc hloc
    refine h.empty loc ?_
    change (leftover x.refused (x.db.log ++ [_]) loc).isSome = true at hloc
    rw [leftover_keep hnew] at hloc
    split at hloc
    · cases hloc
    · exact hloc
  · intro l hl
    refine (h.below l hl).trans ?_
    change first + (x.db.log.length : Int) < first + ((x.db.log ++ [_]).length : Nat)
    simp
  · intro u hu
    refine hkeep u ?_
    change aborted (x.db.log ++ [_]) u = true at hu
    rw [aborted_append] at hu
    rcases Bool.or_eq_true_iff.1 hu with hu | hu
    · exact h.clean u hu
    · rw [Bool.and_eq_true, decide_eq_true_eq] at hu
      exact hu.1 ▸ hclean hu.2

theorem Follows.legal (h : Follows first x d) (hl : LogInv cat.bare first x.db) (hlegal : x.db.Legal cat e) :
    d.Legal cat.bare e := by
  cases e with
  | begin t => exact h.lives.absent hlegal
  | write t w =>
      obtain ⟨⟨y, hy, hp⟩, hown, hop, htab, -⟩ := hlegal
      obtain ⟨z, hz, hph, -⟩ := h.lives.present hy
      refine ⟨⟨z, hz, hph.trans hp⟩, ?_, ?_, htab, nofun⟩
      · rw [h.owner]
        exact hown
      · rw [h.store]
        exact hop
  | commit t =>
      obtain ⟨y, hy, hp⟩ := hlegal
      obtain ⟨z, hz, hph, -⟩ := h.lives.present hy
      exact ⟨z, hz, by rw [hph]; exact hp⟩
  | abort t =>
      obtain ⟨y, hy, hp⟩ := hlegal
      obtain ⟨z, hz, hph, -⟩ := h.lives.present hy
      exact ⟨z, hz, hph.trans hp⟩
  | undo t | release t =>
      obtain ⟨y, hy, hp, hws⟩ := hlegal
      obtain ⟨z, hz, hph, hzy⟩ := h.lives.present hy
      have hab := hl.phase t
      rw [hy] at hab
      obtain ⟨prev, ws, ph⟩ := y
      cases show ph = .aborting from hp
      exact ⟨z, hz, hph, by rw [hzy (h.clean t hab.2)]; exact hws⟩

/-- The last entry of a slot is that of the transaction that holds the table, if it has one. -/
theorem DataInv.last_entry (hd : DataInv cat base d) (hown : d.owner loc.table = some t)
    {e e' : TxnId × Op Bytes} (he : e ∈ slotLog loc d.log) (het : e.1 = t) {l : List (TxnId × Op Bytes)}
    (hl : slotLog loc d.log = l ++ [e']) :
    e'.1 = t := by
  obtain ⟨A, B, hAB, hA, hB⟩ := hd.last loc t hown
  rw [hAB] at he hl
  have heB : e ∈ B := (List.mem_append.1 he).resolve_left fun h => hA e h het
  obtain ⟨B', b, rfl⟩ := (List.eq_nil_or_concat B).resolve_left (List.ne_nil_of_mem heB)
  rw [List.concat_eq_append, ← List.append_assoc] at hl
  obtain ⟨-, hb⟩ := List.append_inj' hl rfl
  cases hb
  exact hB _ (by simp)

/-- A slot whose log ends in a refused INSERT is not in the write set of a transaction that aborts. -/
theorem Follows.undo_slot (h : Follows first x d) (hd : DataInv cat.bare base d)
    (hz : d.txns t = some z) (hp : z.phase = .aborting) (hclean : x.Clean t) {w : Write}
    (hw : w ∈ z.writeSet) :
    leftover x.refused x.db.log w.loc = none := by
  refine Option.eq_none_iff_forall_ne_some.2 fun ⟨u, row⟩ hlast => ?_
  have hmem : (t, w.op) ∈ slotLog w.loc d.log := hd.logged t z hz w hw
  obtain ⟨l, hend⟩ := (h.logs.slots w.loc).last_eq hlast
  have hut : u = t := hd.last_entry (hd.lock t z hz (.inr hp) w.loc _ hmem rfl) hmem rfl hend
  obtain ⟨r, hr, hlsn, htid, -⟩ := leftover_mem hlast
  exact hclean r hr (htid.trans hut) hlsn

theorem Follows.done (h : Follows first x d) (hl : LogInv cat.bare first x.db) (hd : DataInv cat.bare base d)
    (hlegal : x.Legal cat (.done e)) : Follows first (x.apply first (.done e)) (d.apply first e) := by
  obtain ⟨hlegal, habort⟩ := hlegal
  have hlegal' := h.legal hl hlegal
  cases e with
  | begin t => exact h.addLog rfl (fun _ => rfl) (by rintro _ ⟨⟩) (by rintro ⟨⟩)
  | write t w =>
      obtain ⟨⟨y, hy, hp⟩, -, hop, -⟩ := hlegal
      obtain ⟨z, hz, hph, hws⟩ := h.lives.present hy
      have hadd : Follows first ⟨x.db.addLog first t { y with writeSet := w :: y.writeSet } (.write w),
        x.refused⟩
          (d.addLog first t { z with writeSet := w :: z.writeSet } (.write w)) := by
        refine h.addLog hph (fun ht => congrArg (w :: ·) (hws ht)) ?_ (by rintro ⟨⟩)
        rintro _ ⟨rfl⟩ hleft
        rw [h.empty w.loc hleft] at hop
        cases hw : w.op with
        | put v => exact ⟨v, rfl⟩
        | erase v | set v v' =>
            rw [hw] at hop
            cases hop
      simp only [TryDb.apply, Db.apply, hy, hz]
      refine ⟨congrArg w.redo h.store, congrArg (Function.update · _ _) h.owner, hadd.lives,
        hadd.logs, fun loc hloc => ?_, hadd.below, hadd.clean⟩
      have hne : loc ≠ w.loc := by
        rintro rfl
        have hnew : first + (x.db.log.length : Int) ∉ x.refused := fun hin => (h.below _ hin).ne rfl
        change (leftover x.refused (x.db.log ++ [_]) w.loc).isSome = true at hloc
        rw [leftover_keep hnew] at hloc
        simp [LogRecord.write?] at hloc
      rw [Write.redo_eq]
      exact (Function.update_of_ne hne _ _).trans (hadd.empty loc hloc)
  | commit t =>
      obtain ⟨y, hy, hp⟩ := hlegal
      obtain ⟨z, hz, hph, hws⟩ := h.lives.present hy
      have hadd : Follows first
        ⟨x.db.addLog first t { y with writeSet := [], phase := .committed } .commit, x.refused⟩
          (d.addLog first t { z with writeSet := [], phase := .committed } .commit) :=
            h.addLog rfl (fun _ => rfl) (by rintro _ ⟨⟩) (by rintro ⟨⟩)
      simp only [TryDb.apply, Db.apply, hy, hz]
      refine ⟨hadd.store, ?_, hadd.lives, hadd.logs, hadd.empty, hadd.below, hadd.clean⟩
      exact congrArg (fun owner tab => if owner tab = some t then none else owner tab) hadd.owner
  | abort t =>
      obtain ⟨y, hy, hp⟩ := hlegal
      obtain ⟨z, hz, hph, hws⟩ := h.lives.present hy
      simp only [TryDb.apply, Db.apply, hy, hz]
      exact h.addLog rfl hws (by simp) fun _ => habort t rfl
  | undo t =>
      obtain ⟨⟨prev, ws, ph⟩, hz, hp, hne⟩ := hlegal'
      obtain ⟨w, ws, rfl⟩ := List.exists_cons_of_ne_nil hne
      obtain ⟨⟨prev', ws', ph'⟩, hy, hp', -⟩ := hlegal
      obtain ⟨z, hz', hph, hws⟩ := h.lives.present hy
      cases hz.symm.trans hz'
      have hab := hl.phase t
      rw [hy] at hab
      cases show ph' = .aborting from hp'
      have hclean := h.clean t hab.2
      cases show ws' = w :: ws from (hws hclean).symm
      have hleft := h.undo_slot hd hz hp hclean List.mem_cons_self
      simp only [TryDb.apply, Db.apply, hy, hz]
      refine ⟨congrArg w.undo h.store, h.owner, h.lives.update hph fun _ => rfl,
        h.logs, fun loc hloc => ?_, h.below, h.clean⟩
      have hne : loc ≠ w.loc := by
        rintro rfl
        rw [show leftover x.refused x.db.log w.loc = none from hleft] at hloc
        cases hloc
      rw [Write.undo_eq]
      exact (Function.update_of_ne hne _ _).trans (h.empty loc hloc)
  | release t =>
      obtain ⟨y, hy, hp, -⟩ := hlegal
      obtain ⟨z, hz, hph, hws⟩ := h.lives.present hy
      simp only [TryDb.apply, Db.apply, hy, hz]
      refine ⟨h.store, ?_, h.lives.update rfl hws, h.logs, h.empty, h.below, h.clean⟩
      exact congrArg (fun owner tab => if owner tab = some t then none else owner tab) h.owner

theorem Db.apply_write {w : Write} (hz : d.txns t = some z) : d.apply first (.write t w) =
    { store := w.redo d.store
      log := d.log ++ [⟨first + d.log.length, t, z.prevLsn, .write w⟩]
      txns := Function.update d.txns t (some ⟨first + d.log.length, w :: z.writeSet, z.phase⟩)
      owner := Function.update d.owner w.loc.table (some t) } := by
  simp only [Db.apply, hz]
  rfl

def Db.tryInsert (first : Lsn) (d : Db) (t : TxnId) (loc : Loc) (row : Bytes) : Db :=
  (d.apply first (.write t ⟨loc, .put row⟩)).apply first (.write t ⟨loc, .erase row⟩)

theorem Db.tryInsert_eq (hz : d.txns t = some z) : d.tryInsert first t loc row =
    { store := deleteRecord (insertRecord d.store loc row) loc
      log := d.log ++ [⟨first + d.log.length, t, z.prevLsn, .write ⟨loc, .put row⟩⟩] ++
        [⟨first + (d.log.length + 1 : Nat), t, first + d.log.length, .write ⟨loc, .erase row⟩⟩]
      txns := Function.update d.txns t
        (some ⟨first + (d.log.length + 1 : Nat), ⟨loc, .erase row⟩ :: ⟨loc, .put row⟩ :: z.writeSet, z.phase⟩)
      owner := Function.update d.owner loc.table (some t) } := by
  rw [Db.tryInsert, Db.apply_write hz, Db.apply_write (Function.update_self ..)]
  simp only [Function.update_idem, List.length_append, List.length_singleton]
  rfl

theorem TryDb.apply_refused (hy : x.db.txns t = some y) : x.apply first (.refused t loc row) =
    ⟨{ store := deleteRecord (insertRecord x.db.store loc row) loc
       log := x.db.log ++ [⟨first + x.db.log.length, t, y.prevLsn, .write ⟨loc, .put row⟩⟩]
       txns :=
         Function.update x.db.txns t
           (some ⟨first + x.db.log.length, ⟨loc, .put row⟩ :: y.writeSet, y.phase⟩)
       owner := Function.update x.db.owner loc.table (some t) }, (first + x.db.log.length) :: x.refused⟩ := by
  rw [TryDb.apply, TryDb.attempt, Db.apply_write hy]
  rfl

theorem TryDb.clean_refused (u : TxnId) (loc : Loc) (row : Bytes) (hy : x.db.txns t = some y)
    (hl : LogInv cat.bare first x.db) :
    (x.apply first (.refused t loc row)).Clean u ↔ u ≠ t ∧ x.Clean u := by
  rw [apply_refused hy]
  constructor
  · intro hu
    refine ⟨?_, fun r hr hru hlsn => hu r (List.mem_append_left _ hr) hru (List.mem_cons_of_mem _ hlsn)⟩
    rintro rfl
    exact hu _ (List.mem_append_right _ (List.mem_singleton_self _)) rfl List.mem_cons_self
  · rintro ⟨hut, hu⟩ r hr hru hlsn
    rcases List.mem_append.1 hr with hr | hr
    · exact hu r hr hru ((List.mem_cons.1 hlsn).resolve_left (hl.lsns r hr).2.ne)
    · rw [List.mem_singleton.1 hr] at hru
      exact hut hru.symm

theorem Follows.legal_refused (h : Follows first x d) (hlegal : x.Legal cat (.refused t loc row)) :
    d.Legal cat.bare (.write t ⟨loc, .put row⟩) ∧
      (d.apply first (.write t ⟨loc, .put row⟩)).Legal cat.bare (.write t ⟨loc, .erase row⟩) := by
  obtain ⟨⟨y, hy, hp⟩, hown, hfree, htab, -⟩ := hlegal
  obtain ⟨z, hz, hph, -⟩ := h.lives.present hy
  refine ⟨⟨⟨z, hz, hph.trans hp⟩, ?_, ?_, htab, fun _ h => absurd h List.not_mem_nil⟩, ?_⟩
  · rw [h.owner]
    exact hown
  · exact (congrFun h.store loc).trans hfree
  · simp only [Db.apply, hz]
    refine ⟨⟨_, Function.update_self .., hph.trans hp⟩, .inr (Function.update_self ..), ?_,
      htab, fun _ h => absurd h List.not_mem_nil⟩
    exact Function.update_self loc (some row) d.store

theorem Follows.refused (h : Follows first x d) (hl : LogInv cat.bare first x.db)
    (hlegal : x.Legal cat (.refused t loc row)) :
    Follows first (x.apply first (.refused t loc row)) (d.tryInsert first t loc row) := by
  obtain ⟨⟨y, hy, hp⟩, hown, hfree, htab, -⟩ := hlegal
  obtain ⟨z, hz, hph, -⟩ := h.lives.present hy
  have hnew : ∀ r ∈ x.db.log, r.lsn ≠ first + x.db.log.length := fun r hr => (hl.lsns r hr).2.ne
  have hclean : ∀ u, _ ↔ _ := fun u => TryDb.clean_refused u loc row hy hl
  have hleft : ∀ loc', leftover ((first + x.db.log.length) :: x.refused)
      (x.db.log ++ [⟨first + x.db.log.length, t, y.prevLsn, .write ⟨loc, .put row⟩⟩]) loc' =
        if loc = loc' then some (t, row) else leftover x.refused x.db.log loc' := by
    intro loc'
    refine (leftover_refuse (r := ⟨_, _, _, _⟩) List.mem_cons_self rfl loc').trans ?_
    rw [leftover_congr fun r hr => ?_]
    simp [hnew r hr]
  rw [Db.tryInsert_eq hz]
  rw [TryDb.apply_refused hy] at hclean ⊢
  refine ⟨?_, ?_, ?_, ?_, fun loc' hloc' => ?_, fun l hlin => ?_, fun u hu => ?_⟩
  · exact congrArg (fun st => deleteRecord (insertRecord st loc row) loc) h.store
  · exact congrArg (Function.update · loc.table (some t)) h.owner
  · refine (h.lives.mono fun u hu => ((hclean u).1 hu).2).update hph fun ht => absurd rfl ((hclean t).1 ht).1
  · exact h.logs.refuse (r := ⟨_, _, _, _⟩) hnew rfl rfl rfl rfl rfl
  · by_cases heq : loc = loc'
    · rw [← heq]
      exact Function.update_self ..
    · rw [hleft, if_neg heq] at hloc'
      simp only [deleteRecord, insertRecord, Function.update_of_ne (Ne.symm heq)]
      exact h.empty loc' hloc'
  · have hlen : ∀ r, first + (x.db.log.length : Int) < first + ((x.db.log ++ [r]).length : Nat) := fun r => by
      simp
    rcases List.mem_cons.1 hlin with rfl | hlin
    · exact hlen _
    · exact (h.below l hlin).trans (hlen _)
  · refine (hclean u).2 ?_
    simp only [aborted_append, LogBody.isAbort, Bool.and_false, Bool.or_false] at hu
    refine ⟨?_, h.clean u hu⟩
    rintro rfl
    rw [(hl.running hy hp).2] at hu
    cases hu

theorem LogInv.withStore {db : Db} (h : LogInv cat first db) (st : Store) :
    LogInv cat first { db with store := st } :=
  ⟨h.lsns, h.sorted, h.absent, h.linked, h.phase, h.tables, h.records, h.undo, h.list⟩

structure TryInv (cat : Catalog κ) (first : Lsn) (base : Store) (x : TryDb) (d : Db) : Prop where
  follows : Follows first x d
  logInv : LogInv cat.bare first x.db
  fullLog : LogInv cat.bare first d
  data : DataInv cat.bare base d

theorem tryInv_start (base : Store) : TryInv cat first base (TryDb.start base) (Db.start base) :=
  ⟨follows_start base, logInv_start base, logInv_start base, dataInv_start fun _ => nofun⟩

theorem TryInv.apply (h : TryInv cat first base x d) {e : Try} (hlegal : x.Legal cat e)
    (hno : NoOverwrite (x.apply first e).db.log) : ∃ d', TryInv cat first base (x.apply first e) d' := by
  cases e with
  | done e =>
      have hfollows := h.follows.done h.logInv h.data hlegal
      have hlegal' := h.follows.legal h.logInv hlegal.1
      refine ⟨d.apply first e, hfollows, h.logInv.apply hlegal.1.bare, h.fullLog.apply hlegal', ?_⟩
      exact h.data.apply h.fullLog hlegal' (hfollows.logs.noOverwrite hno)
  | refused t loc row =>
      have hfollows := h.follows.refused h.logInv hlegal
      obtain ⟨hput, herase⟩ := h.follows.legal_refused hlegal
      have hno' : NoOverwrite (d.tryInsert first t loc row).log := hfollows.logs.noOverwrite hno
      obtain ⟨l, hl⟩ :=
        Db.log_applyAll first [.write t ⟨loc, .erase row⟩] (d.apply first (.write t ⟨loc, .put row⟩))
      have hmid : NoOverwrite (d.apply first (.write t ⟨loc, .put row⟩)).log :=
        NoOverwrite.of_append (l := l) (hl.symm ▸ hno')
      have hlog := h.fullLog.apply hput
      have hwrite : x.db.Legal cat.bare (.write t ⟨loc, .put row⟩) := by
        obtain ⟨hrun, hown, hfree, htab, -⟩ := hlegal
        exact ⟨hrun, hown, hfree, htab, nofun⟩
      refine ⟨d.tryInsert first t loc row, hfollows, (h.logInv.apply hwrite).withStore _,
        hlog.apply herase, ?_⟩
      exact (h.data.apply h.fullLog hput hmid).apply hlog herase hno'

theorem TryDb.log_apply (first : Lsn) (x : TryDb) (e : Try) : (x.apply first e).db.log = x.db.log ∨
    ∃ r, (x.apply first e).db.log = x.db.log ++ [r] := by
  cases e with
  | done e => exact (Db.log_apply first x.db e).imp_right fun ⟨_, _, _, h⟩ => ⟨_, h⟩
  | refused t loc row =>
      exact (Db.log_apply first x.db (.write t ⟨loc, .put row⟩)).imp_right fun ⟨_, _, _, h⟩ => ⟨_, h⟩

theorem TryDb.log_applyAll (first : Lsn) (ts : List Try) (x : TryDb) :
    x.db.log <+: (x.applyAll first ts).db.log :=
  log_foldl (fun x : TryDb => x.db.log) (TryDb.log_apply first) ts x

theorem TryInv.applyAll {ts : List Try} (h : TryInv cat first base x d) (hrun : TryDb.LegalRun first cat x ts)
    (hno : NoOverwrite (x.applyAll first ts).db.log) :
    ∃ d', TryInv cat first base (x.applyAll first ts) d' := by
  induction ts generalizing x d with
  | nil => exact ⟨d, h⟩
  | cons e ts ih =>
      obtain ⟨l, hl⟩ := TryDb.log_applyAll first ts (x.apply first e)
      have hstep : NoOverwrite (x.apply first e).db.log := NoOverwrite.of_append (l := l) (hl.symm ▸ hno)
      obtain ⟨d', h'⟩ := h.apply hrun.1 hstep
      exact ih h' hrun.2 hno

end Follow

section Crashes

variable {κ : Type} {cat : Catalog κ} {first : Lsn} {base : Store} {x : TryDb} {ts : List Try}
  {c : TryCrash} {loc : Loc}

theorem TryDb.LegalRun.take (h : TryDb.LegalRun first cat x ts) (m : Nat) :
    TryDb.LegalRun first cat x (ts.take m) := by
  induction ts generalizing x m with
  | nil => rw [List.take_nil]; trivial
  | cons e ts ih =>
      cases m with
      | zero => trivial
      | succ m => exact ⟨h.1, ih h.2 m⟩

theorem TryDb.refused_applyAll (first : Lsn) (ts : List Try) (x : TryDb) :
    x.refused ⊆ (x.applyAll first ts).refused ∧
    ∀ l ∈ (x.applyAll first ts).refused, l ∈ x.refused ∨ first + x.db.log.length ≤ l := by
  induction ts generalizing x with
  | nil => exact ⟨List.Subset.refl _, fun l hl => .inl hl⟩
  | cons e ts ih =>
      obtain ⟨hsub, hnew⟩ := ih (x.apply first e)
      have hlen : x.db.log.length ≤ (x.apply first e).db.log.length :=
        (TryDb.log_applyAll first [e] x).length_le
      have hlow : first + (x.db.log.length : Int) ≤ first + ((x.apply first e).db.log.length : Int) :=
        Int.add_le_add_left (Int.ofNat_le.2 hlen) first
      cases e with
      | done e => exact ⟨hsub, fun l hl => (hnew l hl).imp_right hlow.trans⟩
      | refused t loc row =>
          refine ⟨fun l hl => hsub (List.mem_cons_of_mem _ hl), fun l hl => ?_⟩
          rcases hnew l hl with hl | hl
          · rcases List.mem_cons.1 hl with rfl | hl
            · exact .inr le_rfl
            · exact .inl hl
          · exact .inr (hlow.trans hl)

/-- The durable log is the log of an earlier point of the history, and the same statements had
failed by then. -/
theorem TryCrash.inv (hrun : TryDb.LegalRun first cat (TryDb.start base) ts)
    (hno : NoOverwrite (c.log first base ts)) :
    ∃ x d, x.db.log = c.log first base ts ∧ TryInv cat first base x d ∧
      LogsMatch (TryCrash.refused first base ts) x.db.log d.log := by
  obtain ⟨m, hm⟩ :=
    exists_foldl_take (fun x : TryDb => x.db.log) (TryDb.log_apply first) ts (TryDb.start base)
    (d := c.durable) (Nat.zero_le _)
  have hlog : ((TryDb.start base).applyAll first (ts.take m)).db.log = c.log first base ts := hm
  obtain ⟨d, h⟩ := (tryInv_start base).applyAll (hrun.take m) (hlog ▸ hno)
  refine ⟨_, d, hlog, h, h.follows.logs.congr fun r hr => ?_⟩
  have hall : (TryDb.start base).applyAll first ts =
      ((TryDb.start base).applyAll first (ts.take m)).applyAll first (ts.drop m) := by
    rw [TryDb.applyAll, TryDb.applyAll, TryDb.applyAll, ← List.foldl_append, List.take_append_drop]
  obtain ⟨hsub, hnew⟩ :=
    TryDb.refused_applyAll first (ts.drop m) ((TryDb.start base).applyAll first (ts.take m))
  rw [TryCrash.refused, hall]
  exact ⟨fun hl => (hnew _ hl).resolve_right (h.logInv.lsns r hr).2.not_ge, fun hl => hsub hl⟩

theorem VersionInv.refused (h : VersionInv base x.db) {t : TxnId} {row : Bytes} {y : TxnLife}
    (hy : x.db.txns t = some y) :
    VersionInv base (x.apply first (.refused t loc row)).db := by
  have hatt : VersionInv base (x.attempt first t loc row) := h.apply _
  have hin : (t, Op.put row) ∈ slotLog loc (x.attempt first t loc row).log := by
    rw [TryDb.attempt, Db.apply_write hy, slotLog_snoc_write rfl, if_pos rfl]
    exact List.mem_append_right _ (List.mem_singleton_self _)
  refine ⟨hatt.logged, fun loc' => ?_⟩
  by_cases heq : loc' = loc
  · subst heq
    have hundo := (hatt.compat loc').undo hin
    simpa [TryDb.apply, deleteRecord, Op.undo] using hundo
  · simpa [TryDb.apply, deleteRecord, heq] using hatt.compat loc'

theorem versionInv_tries (h : VersionInv base x.db) (hrun : TryDb.LegalRun first cat x ts) :
    VersionInv base (x.applyAll first ts).db := by
  induction ts generalizing x with
  | nil => exact h
  | cons e ts ih =>
      cases e with
      | done e => exact ih (x := x.apply first (.done e)) (h.apply e) hrun.2
      | refused t loc row =>
          obtain ⟨⟨y, hy, -⟩, -⟩ := hrun.1
          exact ih (h.refused hy) hrun.2

/-- What a page holds in memory can be on disk when the session crashes. -/
theorem TryCrash.memory_compat (hrun : TryDb.LegalRun first cat (TryDb.start base) ts) (n : Nat)
    (midway : Bool) (loc : Loc) :
    Compat base ((TryDb.start base).applyAll first (ts.take (n + if midway then 1 else 0))).db.log loc
      (TryCrash.memory first base ts n midway loc) := by
  have hn : VersionInv base ((TryDb.start base).applyAll first (ts.take n)).db :=
    versionInv_tries (versionInv_start base) (hrun.take n)
  cases midway with
  | false => exact hn.compat loc
  | true =>
      have hpre : ((TryDb.start base).applyAll first (ts.take n)).db.log <+:
          ((TryDb.start base).applyAll first (ts.take (n + 1))).db.log := by
        rw [List.take_add, TryDb.applyAll, TryDb.applyAll, List.foldl_append]
        exact TryDb.log_applyAll ..
      have hstay : Compat base ((TryDb.start base).applyAll first (ts.take (n + 1))).db.log loc
          (((TryDb.start base).applyAll first (ts.take n)).db.store loc) := by
        refine (hn.compat loc).mono ?_
        obtain ⟨l, hl⟩ := hpre
        rw [← hl, slotLog_append]
        exact List.subset_append_left _ _
      cases hts : ts[n]? with
      | none =>
          simp only [TryCrash.memory, hts]
          exact hstay
      | some e =>
          cases e with
          | done e =>
              simp only [TryCrash.memory, hts]
              exact hstay
          | refused t loc' row =>
              simp only [TryCrash.memory, hts]
              have hlog : ((TryDb.start base).applyAll first (ts.take (n + 1))).db.log =
                  (((TryDb.start base).applyAll first (ts.take n)).attempt first t loc' row).log := by
                rw [List.take_add_one, hts, TryDb.applyAll, List.foldl_append]
                rfl
              simp only [if_true, hlog]
              exact (hn.apply _).compat loc

theorem TryCrash.disk_compat (hrun : TryDb.LegalRun first cat (TryDb.start base) ts)
    (hwal : c.WriteAhead first base ts) (loc : Loc) :
    Compat base (c.log first base ts) loc (c.disk first base ts loc) := by
  refine (TryCrash.memory_compat hrun (c.version loc.page) (c.midway loc.page) loc).mono ?_
  intro p hp
  obtain ⟨r, hr, w, hw, hloc, rfl⟩ := mem_slotLog.1 hp
  exact mem_slotLog.2 ⟨r, hwal loc.page r hr w hw (by rw [hloc]), w, hw, hloc, rfl⟩

end Crashes

section Outcome

variable {κ : Type} {cat : Catalog κ} {first : Lsn} {base disk : Store} {x : TryDb} {d : Db}
  {ts : List Try} {c : TryCrash} {loc : Loc} {refused : List Lsn} {order : List (String × Int)}

/-- Where the log of a slot ends in a refused INSERT of a winner, nobody has lost anything in the slot. -/
theorem TryInv.all_win (h : TryInv cat first base x d) (hlogs : LogsMatch refused x.db.log d.log)
    (hno : NoOverwrite x.db.log) {t : TxnId} {row : Bytes}
    (hlast : leftover refused x.db.log loc = some (t, row)) (ht : winner x.db.log t = true)
    {e : TxnId × Op Bytes} (he : e ∈ slotLog loc x.db.log) : winner x.db.log e.1 = true := by
  rw [← hlogs.winner] at ht ⊢
  have hno' := hlogs.noOverwrite hno
  obtain ⟨l, hend⟩ := (hlogs.slots loc).last_eq hlast
  have he' : e ∈ slotLog loc d.log := (hlogs.slots loc).subset he
  by_contra hlost
  have het : e.1 ≠ t := by
    rintro rfl
    exact hlost ht
  have hbefore : e ∈ l := by
    rw [hend] at he'
    refine (List.mem_append.1 he').resolve_right fun hin => het ?_
    rw [List.mem_singleton.1 hin]
  cases hz : d.txns e.1 with
  | none => exact h.fullLog.no_entry hz e he' rfl
  | some z =>
      have hph := h.fullLog.phase e.1
      cases hab : aborted d.log e.1 with
      | true =>
          -- it would have been overwritten by the winner
          have hord := hno'.order loc
          rw [hend] at hord
          have hcom := (List.pairwise_append.1 hord).2.2 e hbefore _ (List.mem_singleton_self _) hab
          simp [winner, hcom] at ht
      | false =>
          -- it would still hold the table
          rw [hz, hab] at hph
          have hcom : committed d.log e.1 = false := by simpa [winner, hab] using hlost
          rw [hcom] at hph
          obtain ⟨p, ws, ph⟩ := z
          cases ph with
          | running =>
              exact het (h.data.last_entry (h.data.lock e.1 _ hz (.inl rfl) loc e he' rfl)
                he' rfl hend).symm
          | aborting | aborted => cases hph.2
          | committed => cases hph

/-- Redo and undo bring back the rows of refused INSERTs. -/
theorem TryInv.undoAll (h : TryInv cat first base x d) (hlogs : LogsMatch refused x.db.log d.log)
    (hno : NoOverwrite x.db.log) (hfirst : 0 ≤ first) (hdisk : ∀ loc, Compat base x.db.log loc (disk loc))
    (horder : (readLog x.db.log).RedoOrder order) :
    (readLog x.db.log).undoAll (readLog x.db.log).undoTxnList ((readLog x.db.log).redo order disk) =
      .ok (withLeftovers refused x.db.log base) := by
  obtain ⟨mid, hundo, hmid⟩ := h.logInv.undoAll_redo disk hfirst horder
  have hstore : mid = withLeftovers refused x.db.log base := by
    funext loc
    rw [hmid, withLeftovers, written, effects_slot]
    refine (hlogs.slots loc).replay (fun e he hW => h.logInv.covered hno he hW)
      (fun t ht => h.logInv.undone_not_winner ht)
      (hdisk loc).1 (hdisk loc).2 ?_ (fun t ht => ?_) fun t row hlast ht e he =>
        h.all_win hlogs hno hlast ht he
    · rw [← hlogs.winner]
      exact h.data.winners loc
    · have hlost := h.logInv.undone_not_winner ht
      rw [← hlogs.winner] at hlost ⊢
      rw [← effects_slot]
      exact h.data.losers loc t hlost
  rw [hundo, hstore]

/-- A refused INSERT of a winner with which the log of a slot ends has taken the slot's row away. -/
theorem TryInv.written_none (h : TryInv cat first base x d) (hlogs : LogsMatch refused x.db.log d.log)
    {t : TxnId} {row : Bytes} (hlast : leftover refused x.db.log loc = some (t, row))
    (ht : winner x.db.log t = true) :
    written refused x.db.log base loc = none := by
  obtain ⟨l, hend⟩ := (hlogs.slots loc).last_eq hlast
  have hwin := h.data.winners loc
  rw [hlogs.winner] at hwin
  rw [written, effects_slot, (hlogs.slots loc).effects hwin, hend, Retracts.opsWith_snoc,
    if_pos ht, redoAll_append]
  rfl

variable [DecidableEq κ]

theorem TryInv.recover (h : TryInv cat first base x d) (hlogs : LogsMatch refused x.db.log d.log)
    (hno : NoOverwrite x.db.log) (hfirst : 0 ≤ first) (hdisk : ∀ loc, Compat base x.db.log loc (disk loc))
    (horder : (readLog x.db.log).RedoOrder order) :
    recover cat order x.db.log disk = .ok (if x.db.log = [] then withLeftovers refused x.db.log base
      else rebuildIndexes cat (withLeftovers refused x.db.log base)) := by
  have hcheck : checkTables cat x.db.log = .ok () := checkTables_ok h.logInv.tables
  rw [Rmdb.recover, analyze, h.logInv.records, hcheck]
  change RecoveryManager.undo _ _ _ = _
  rw [RecoveryManager.undo, h.undoAll hlogs hno hfirst hdisk horder]
  change (if _ then _ else _) = _
  by_cases hnil : x.db.log = []
  · rw [if_pos hnil, hnil]
    rfl
  · rw [if_neg hnil, if_neg (rebuilds_of_ne_nil hnil fun r hr => (h.logInv.tables r hr).2)]
    rfl

def firstByte : Catalog (Option UInt8) where
  tables := ["t"]
  slots _ := [⟨1, 0⟩, ⟨1, 1⟩]
  nodup _ := by decide
  indexes _ := [List.head?]

def refusedThenCommit (loc : Loc) (row : Bytes) : List Try :=
  [.done (.begin 0), .refused 0 loc row, .done (.commit 0)]

theorem refusedThenCommit_legal {base : Store} {loc : Loc} {row row' : Bytes} (loc' : Loc)
    (htab : loc.table = "t") (hfree : base loc = none) (hne : loc'.rid ≠ loc.rid)
    (hrow : base ⟨"t", loc'.rid⟩ = some row') (hkey : row'.head? = row.head?) :
    TryDb.LegalRun 0 firstByte (TryDb.start base) (refusedThenCommit loc row) := by
  refine ⟨⟨rfl, nofun⟩, ⟨⟨_, rfl, rfl⟩, .inl rfl, hfree, ?_, fun huniq => ?_⟩,
    ⟨⟨_, rfl, .inl rfl⟩, nofun⟩, trivial⟩
  · rw [htab]
    exact List.mem_singleton_self _
  · rw [htab] at huniq
    have hloc : loc = ⟨"t", loc.rid⟩ := by rw [← htab]
    refine hne (huniq List.head? (List.mem_singleton_self _) loc'.rid loc.rid row' row ?_ ?_ hkey)
    · rw [insertRecord, Function.update_of_ne]
      · exact hrow
      · intro h
        exact hne (by rw [← h])
    · rw [insertRecord, ← hloc, Function.update_self]

end Outcome

end Rmdb
