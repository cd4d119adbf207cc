import Rmdb.Recovery.LogInv

namespace Rmdb

open Slot

variable {log : List LogRecord} {r : LogRecord} {t : TxnId} {loc : Loc} {base st st' : Store}

theorem slotLog_snoc_none (h : r.write? = none) : slotLog loc (log ++ [r]) = slotLog loc log := by
  simp [slotLog, h]

theorem slotLog_snoc_write {w : Write} (h : r.write? = some w) : slotLog loc (log ++ [r]) =
    if w.loc = loc then slotLog loc log ++ [(r.logTid, w.op)] else slotLog loc log := by
  by_cases hl : w.loc = loc <;> simp [slotLog, h, hl]

theorem writesOf_snoc (u : TxnId) : writesOf u (log ++ [r]) =
    if r.logTid = u then writesOf u log ++ r.write?.toList else writesOf u log := by
  rw [writesOf, recordsOf_append]
  split
  · rw [List.filterMap_append, ← writesOf]
    cases h : r.write? <;> simp [h]
  · rfl

theorem slotLog_filter (W : TxnId → Bool) :
    slotLog loc (log.filter fun r => W r.logTid) = (slotLog loc log).filter fun e => W e.1 := by
  induction log with
  | nil => rfl
  | cons r log ih =>
      cases hw : r.write? with
      | none =>
          cases hW : W r.logTid <;> simpa [slotLog, hw, hW] using ih
      | some w =>
          by_cases hl : w.loc = loc
          · cases hW : W r.logTid <;> simpa [slotLog, hw, hW, hl] using ih
          · cases hW : W r.logTid <;> simpa [slotLog, hw, hW, hl] using ih

theorem effects_slot (W : TxnId → Bool) :
    effects W base log loc = redoAll (opsWith W (slotLog loc log)) (base loc) := by
  rw [effects, redo_writes, opsAt_writes, slotLog_filter, opsWith]

theorem effects_congr {W W' : TxnId → Bool} {log' : List LogRecord}
    (hlog : slotLog loc log' = slotLog loc log) (hW : ∀ e ∈ slotLog loc log, W' e.1 = W e.1) :
    effects W' base log' loc = effects W base log loc := by
  rw [effects_slot, effects_slot, hlog, opsWith, opsWith, List.filter_congr hW]

theorem UniqueKeys.congr {κ : Type} {cat : Catalog κ} {tab : String} (h : UniqueKeys cat tab st)
    (he : ∀ loc, loc.table = tab → st' loc = st loc) : UniqueKeys cat tab st' := by
  intro key hkey r r' row row' hr hr' hk
  rw [he _ rfl] at hr hr'
  exact h key hkey r r' row row' hr hr' hk

/-- Nobody who has written is both aborted and committed, and no committed transaction has
written a slot after an aborted one. -/
structure NoOverwrite (log : List LogRecord) : Prop where
  once : ∀ loc, ∀ e ∈ slotLog loc log, aborted log e.1 = true → committed log e.1 = false
  order : ∀ loc, (slotLog loc log).Pairwise fun e e' => aborted log e.1 = true → committed log e'.1 = false

theorem noOverwrite_of_no_abort (h : ∀ t, aborted log t = false) : NoOverwrite log := by
  refine ⟨?_, fun loc => List.pairwise_of_forall ?_⟩
  · intro loc e _ he
    rw [h] at he
    cases he
  · intro e e' he
    rw [h] at he
    cases he

theorem NoOverwrite.of_append {l : List LogRecord} (h : NoOverwrite (log ++ l)) : NoOverwrite log := by
  have hc : ∀ t, committed (log ++ l) t = false → committed log t = false := by
    intro t ht
    rw [committed, List.any_append, Bool.or_eq_false_iff] at ht
    exact ht.1
  have ha : ∀ t, aborted log t = true → aborted (log ++ l) t = true := by
    intro t ht
    rw [aborted] at ht
    rw [aborted, List.any_append, ht, Bool.true_or]
  have hsub : ∀ loc, slotLog loc log ⊆ slotLog loc (log ++ l) := by
    intro loc
    rw [slotLog_append]
    exact List.subset_append_left _ _
  refine ⟨fun loc e he ht => hc _ (h.once loc e (hsub loc he) (ha _ ht)), fun loc => ?_⟩
  have hp := h.order loc
  rw [slotLog_append] at hp
  refine (List.pairwise_append.1 hp).1.imp ?_
  intro e e' he ht
  exact hc _ (he (ha _ ht))

/-- The live records against the log: a table that nobody has locked holds what the
winners have written, and from a locked one the holder's writes lead back to that. -/
structure DataInv {κ : Type} (cat : Catalog κ) (base : Store) (db : Db) : Prop where
  free : ∀ loc, db.owner loc.table = none → db.store loc = effects (winner db.log) base db.log loc
  held : ∀ tab t, db.owner tab = some t → ∃ x, db.txns t = some x ∧
    (x.phase = .running ∨ x.phase = .aborting) ∧
    ∀ loc, loc.table = tab →
    LegalFrom (effects (winner db.log) base db.log loc) (opsAt loc x.writeSet).reverse ∧
      db.store loc = redoAll (opsAt loc x.writeSet).reverse (effects (winner db.log) base db.log loc)
  last : ∀ loc t, db.owner loc.table = some t → ∃ A B, slotLog loc db.log = A ++ B ∧
    (∀ e ∈ A, e.1 ≠ t) ∧ ∀ e ∈ B, e.1 = t
  stack : ∀ t x, db.txns t = some x → x.phase = .running → x.writeSet.reverse = writesOf t db.log
  logged : ∀ t x, db.txns t = some x → ∀ w ∈ x.writeSet, (t, w.op) ∈ slotLog w.loc db.log
  lock : ∀ t x, db.txns t = some x → x.phase = .running ∨ x.phase = .aborting →
    ∀ loc, ∀ e ∈ slotLog loc db.log, e.1 = t → db.owner loc.table = some t
  losers : ∀ loc t, winner db.log t = false →
    LegalFrom (effects (winner db.log) base db.log loc) (opsOf t (slotLog loc db.log))
  winners : ∀ loc, LegalFrom (base loc) (opsWith (winner db.log) (slotLog loc db.log))
  unique : ∀ tab, UniqueKeys cat tab (effects (winner db.log) base db.log)
  uniqueOwn : ∀ tab t x, db.owner tab = some t → db.txns t = some x → x.phase = .running →
    UniqueKeys cat tab db.store

variable {κ : Type} {cat : Catalog κ} {first : Lsn} {db : Db} {x : TxnLife}

theorem dataInv_start (hbase : ∀ tab, UniqueKeys cat tab base) : DataInv cat base (Db.start base) where
  free _ _ := rfl
  held _ _ h := by cases h
  last _ _ h := by cases h
  stack _ _ h := by cases h
  logged _ _ h := by cases h
  lock _ _ h := by cases h
  losers _ _ _ := trivial
  winners _ := trivial
  unique := hbase
  uniqueOwn _ _ _ h := by cases h

theorem LogInv.no_entry (h : LogInv cat first db) (ht : db.txns t = none) :
    ∀ e ∈ slotLog loc db.log, e.1 ≠ t := by
  rw [← opsOf_eq_nil, ← opsAt_writesOf, writesOf, h.absent t ht]
  rfl

/-- The outcome of the others does not change when `t` appends a record that ends nothing. -/
theorem winner_snoc (hc : r.body.isCommit = false) (ha : r.body.isAbort = false) :
    winner (log ++ [r]) = winner log := by
  funext u
  rw [winner, winner, committed_append, aborted_append, hc, ha]
  simp

/-- What a transaction was before a record was added: it has written nothing and locked no table, or
it goes on with its writes. -/
inductive TxnLife.Since (db : Db) (u : TxnId) (y : TxnLife) : Prop
  | silent (hws : y.writeSet = []) (hnone : writesOf u db.log = []) (hfree : ∀ tab, db.owner tab ≠ some u)
  | same {z : TxnLife} (hz : db.txns u = some z) (hws : z.writeSet = y.writeSet)
      (hrun : y.phase = .running → z.phase = .running)
      (hlive : y.phase = .running ∨ y.phase = .aborting → z.phase = .running ∨ z.phase = .aborting)

/-- A record that is not of a row, and with which no other transaction wins. -/
theorem DataInv.addRecord {db' : Db} {r : LogRecord} (h : DataInv cat base db)
    (hlog : db'.log = db.log ++ [r])
    (hr : r.write? = none) (hwin : winner db'.log = winner db.log) (hstore : db'.store = db.store)
    (howner : db'.owner = db.owner)
    (hheld : ∀ u z, db.txns u = some z → z.phase = .running ∨ z.phase = .aborting →
      ∃ y, db'.txns u = some y ∧ (y.phase = .running ∨ y.phase = .aborting) ∧ y.writeSet = z.writeSet)
    (htxn : ∀ u y, db'.txns u = some y → y.Since db u) : DataInv cat base db' := by
  have hslot : ∀ loc, slotLog loc db'.log = slotLog loc db.log := by
    intro loc
    rw [hlog, slotLog_snoc_none hr]
  have hV : effects (winner db'.log) base db'.log = effects (winner db.log) base db.log := by
    rw [hwin]
    exact funext fun loc => effects_congr (hslot loc) fun _ _ => rfl
  have hwrites : ∀ u, writesOf u db'.log = writesOf u db.log := by
    intro u
    rw [hlog, writesOf_snoc, hr]
    split <;> simp
  refine ⟨?_, ?_, ?_, ?_, ?_, ?_, ?_, ?_, ?_, ?_⟩
  · rw [hV, hstore, howner]
    exact h.free
  · rw [hV, hstore, howner]
    intro tab u hu
    obtain ⟨z, hz, hph, hrest⟩ := h.held tab u hu
    obtain ⟨y, hy, hph', hws⟩ := hheld u z hz hph
    rw [← hws] at hrest
    exact ⟨y, hy, hph', hrest⟩
  · rw [howner]
    intro loc u hu
    rw [hslot]
    exact h.last loc u hu
  · intro u y hy hph
    rw [hwrites]
    cases htxn u y hy with
    | silent hws hnone hfree =>
        rw [hws, hnone]
        rfl
    | same hz hws hrun hlive =>
        rw [← hws]
        exact h.stack u _ hz (hrun hph)
  · intro u y hy w hw
    cases htxn u y hy with
    | silent hws hnone hfree =>
        rw [hws] at hw
        cases hw
    | same hz hws hrun hlive =>
        rw [← hws] at hw
        rw [hslot]
        exact h.logged u _ hz w hw
  · rw [howner]
    intro u y hy hph loc e he heu
    rw [hslot] at he
    cases htxn u y hy with
    | silent hws hnone hfree =>
        have hnil : opsOf u (slotLog loc db.log) = [] := by
          rw [← opsAt_writesOf, hnone]
          rfl
        exact absurd heu (opsOf_eq_nil.1 hnil e he)
    | same hz hws hrun hlive => exact h.lock u _ hz (hlive hph) loc e he heu
  · rw [hV, hwin]
    intro loc u hu
    rw [hslot]
    exact h.losers loc u hu
  · intro loc
    rw [hwin, hslot]
    exact h.winners loc
  · rw [hV]
    exact h.unique
  · rw [hstore, howner]
    intro tab u y ho hy hph
    cases htxn u y hy with
    | silent hws hnone hfree => exact absurd ho (hfree tab)
    | same hz hws hrun hlive => exact h.uniqueOwn tab u _ ho hz (hrun hph)

theorem DataInv.begin (h : DataInv cat base db) (hl : LogInv cat first db) (ht : db.txns t = none) :
    DataInv cat base (db.apply first (.begin t)) := by
  refine h.addRecord rfl rfl (winner_snoc rfl rfl) rfl rfl ?_ ?_
  · intro u z hz hph
    have hut : u ≠ t := by
      rintro rfl
      rw [ht] at hz
      cases hz
    exact ⟨z, by simpa [Db.apply, Db.addLog, hut] using hz, hph, rfl⟩
  · intro u y hy
    by_cases hu : u = t
    · subst hu
      simp only [Db.apply, Db.addLog, Function.update_self, Option.some.injEq] at hy
      refine .silent (by rw [← hy]) ?_ fun tab ho => ?_
      · rw [writesOf, hl.absent u ht]
        rfl
      · obtain ⟨z, hz, -⟩ := h.held tab u ho
        rw [ht] at hz
        cases hz
    · exact .same (by simpa [Db.apply, Db.addLog, hu] using hy) rfl id id

theorem LogInv.running (h : LogInv cat first db) (ht : db.txns t = some x) (hp : x.phase = .running) :
    committed db.log t = false ∧ aborted db.log t = false := by
  have hph := h.phase t
  rw [ht] at hph
  obtain ⟨p, ws, ph⟩ := x
  cases show ph = .running from hp
  exact hph

theorem LogInv.not_winner (h : LogInv cat first db) (ht : db.txns t = some x) (hp : x.phase = .running) :
    winner db.log t = false := by
  rw [winner, (h.running ht hp).1, Bool.false_and]

theorem DataInv.write (h : DataInv cat base db) (hl : LogInv cat first db) {w : Write}
    (hlegal : db.Legal cat (.write t w)) : DataInv cat base (db.apply first (.write t w)) := by
  obtain ⟨⟨x, ht, hp⟩, hown, hop, -, huniq⟩ := hlegal
  have hW := hl.not_winner ht hp
  -- the state after the step, field by field
  have hlog : (db.apply first (.write t w)).log =
      db.log ++ [⟨first + db.log.length, t, x.prevLsn, .write w⟩] := by
    simp [Db.apply, ht, Db.addLog]
  have hstore : (db.apply first (.write t w)).store = w.redo db.store := by simp [Db.apply, ht]
  have howner : (db.apply first (.write t w)).owner = Function.update db.owner w.loc.table (some t) := by
    simp [Db.apply, ht]
  have htxn : (db.apply first (.write t w)).txns =
      Function.update db.txns t (some ⟨first + db.log.length, w :: x.writeSet, x.phase⟩) := by
    simp [Db.apply, ht, Db.addLog]
  have hslot : ∀ loc, slotLog loc (db.log ++ [⟨first + db.log.length, t, x.prevLsn, .write w⟩]) =
      if w.loc = loc then slotLog loc db.log ++ [(t, w.op)] else slotLog loc db.log :=
    fun loc => slotLog_snoc_write rfl
  have hwin : winner (db.log ++ [⟨first + db.log.length, t, x.prevLsn, .write w⟩]) = winner db.log :=
    winner_snoc rfl rfl
  have hV : effects (winner db.log) base (db.log ++ [⟨first + db.log.length, t, x.prevLsn, .write w⟩]) =
      effects (winner db.log) base db.log := by
    funext loc
    rw [effects_slot, effects_slot, hslot]
    split
    · rw [opsWith_append]
      simp [opsWith, hW]
    · rfl
  -- a transaction that has not locked the table has not written to it
  have hnone : db.owner w.loc.table = none → ∀ loc, loc.table = w.loc.table → opsAt loc x.writeSet = [] := by
    intro hno loc hloc
    rw [opsAt, List.map_eq_nil_iff]
    refine List.filter_eq_nil_iff.2 fun v hv => ?_
    rw [decide_eq_true_eq]
    rintro rfl
    have := h.lock t x ht (.inl hp) v.loc _ (h.logged t x ht v hv) rfl
    rw [hloc, hno] at this
    cases this
  have hbefore : ∀ loc, loc.table = w.loc.table →
      LegalFrom (effects (winner db.log) base db.log loc) (opsAt loc x.writeSet).reverse ∧
        db.store loc = redoAll (opsAt loc x.writeSet).reverse (effects (winner db.log) base db.log loc) := by
    intro loc hloc
    rcases hown with hno | hmine
    · rw [hnone hno loc hloc]
      exact ⟨trivial, h.free loc (by rw [hloc]; exact hno)⟩
    · obtain ⟨y, hy, -, hrest⟩ := h.held _ _ hmine
      rw [ht] at hy
      cases hy
      exact hrest loc hloc
  refine ⟨?_, ?_, ?_, ?_, ?_, ?_, ?_, ?_, ?_, ?_⟩ <;> try simp only [hlog, hwin]
  · rw [hV, hstore, howner]
    intro loc hno
    by_cases htab : loc.table = w.loc.table
    · simp [htab] at hno
    · rw [Function.update_of_ne htab] at hno
      have hne : loc ≠ w.loc := fun hc => htab (by rw [hc])
      rw [Write.redo_eq, Function.update_of_ne hne]
      exact h.free loc hno
  · rw [hV, hstore, howner, htxn]
    intro tab u hu
    by_cases htab : tab = w.loc.table
    · rw [htab, Function.update_self] at hu
      cases hu
      refine ⟨⟨first + db.log.length, w :: x.writeSet, x.phase⟩, by rw [Function.update_self], .inl hp, ?_⟩
      intro loc hloc
      rw [htab] at hloc
      obtain ⟨hleg, hst⟩ := hbefore loc hloc
      change LegalFrom _ (opsAt loc (w :: x.writeSet)).reverse ∧
        _ = redoAll (opsAt loc (w :: x.writeSet)).reverse _
      rw [opsAt_cons, Write.redo_eq]
      by_cases hw : w.loc = loc
      · subst hw
        rw [if_pos rfl, List.reverse_cons, legalFrom_snoc, ← hst, redoAll_append, ← hst, Function.update_self]
        exact ⟨⟨hleg, hop⟩, rfl⟩
      · rw [if_neg hw, Function.update_of_ne (Ne.symm hw)]
        exact ⟨hleg, hst⟩
    · rw [Function.update_of_ne htab] at hu
      obtain ⟨y, hy, hph, hrest⟩ := h.held tab u hu
      by_cases hut : u = t
      · subst hut
        rw [ht] at hy
        cases hy
        refine ⟨⟨first + db.log.length, w :: x.writeSet, x.phase⟩, by rw [Function.update_self], hph, ?_⟩
        intro loc hloc
        have hne : w.loc ≠ loc := fun hc => htab (by rw [← hloc, hc])
        change LegalFrom _ (opsAt loc (w :: x.writeSet)).reverse ∧
          _ = redoAll (opsAt loc (w :: x.writeSet)).reverse _
        rw [opsAt_cons, if_neg hne, Write.redo_eq, Function.update_of_ne (Ne.symm hne)]
        exact hrest loc hloc
      · refine ⟨y, by rw [Function.update_of_ne hut]; exact hy, hph, ?_⟩
        intro loc hloc
        have hne : loc ≠ w.loc := fun hc => htab (by rw [← hloc, hc])
        rw [Write.redo_eq, Function.update_of_ne hne]
        exact hrest loc hloc
  · rw [howner]
    intro loc u hu
    rw [hslot]
    by_cases htab : loc.table = w.loc.table
    · rw [htab, Function.update_self] at hu
      cases hu
      obtain ⟨A, B, hAB, hA, hB⟩ : ∃ A B, slotLog loc db.log = A ++ B ∧ (∀ e ∈ A, e.1 ≠ t) ∧
          ∀ e ∈ B, e.1 = t := by
        rcases hown with hno | hmine
        · refine ⟨slotLog loc db.log, [], (List.append_nil _).symm, ?_, by simp⟩
          intro e he hc
          have := h.lock t x ht (.inl hp) loc e he hc
          rw [htab, hno] at this
          cases this
        · exact h.last loc t (by rw [htab]; exact hmine)
      split
      · refine ⟨A, B ++ [(t, w.op)], by rw [hAB, List.append_assoc], hA, ?_⟩
        intro e he
        rcases List.mem_append.1 he with he | he
        · exact hB e he
        · rw [List.mem_singleton.1 he]
      · exact ⟨A, B, hAB, hA, hB⟩
    · rw [Function.update_of_ne htab] at hu
      rw [if_neg fun hc => htab (by rw [← hc])]
      exact h.last loc u hu
  · rw [htxn]
    intro u y hy hph
    rw [writesOf_snoc]
    by_cases hut : u = t
    · subst hut
      rw [Function.update_self] at hy
      cases hy
      rw [if_pos rfl, List.reverse_cons, h.stack u x ht hp]
      rfl
    · rw [Function.update_of_ne hut] at hy
      rw [if_neg (Ne.symm hut)]
      exact h.stack u y hy hph
  · rw [htxn]
    intro u y hy v hv
    have hgrow : ∀ e, e ∈ slotLog v.loc db.log →
        e ∈ slotLog v.loc (db.log ++ [⟨first + db.log.length, t, x.prevLsn, .write w⟩]) := by
      intro e he
      rw [slotLog_append]
      exact List.mem_append_left _ he
    by_cases hut : u = t
    · subst hut
      rw [Function.update_self] at hy
      cases hy
      rcases List.mem_cons.1 hv with rfl | hv
      · rw [hslot, if_pos rfl]
        exact List.mem_append_right _ (List.mem_singleton_self _)
      · exact hgrow _ (h.logged u x ht v hv)
    · rw [Function.update_of_ne hut] at hy
      exact hgrow _ (h.logged u y hy v hv)
  · rw [htxn, howner]
    intro u y hy hph loc e he heu
    rw [hslot] at he
    by_cases hut : u = t
    · subst hut
      by_cases htab : loc.table = w.loc.table
      · rw [htab, Function.update_self]
      · rw [Function.update_of_ne htab]
        rw [if_neg fun hc => htab (by rw [← hc])] at he
        exact h.lock u x ht (.inl hp) loc e he heu
    · rw [Function.update_of_ne hut] at hy
      have he' : e ∈ slotLog loc db.log := by
        split at he
        · rcases List.mem_append.1 he with he | he
          · exact he
          · rw [List.mem_singleton.1 he] at heu
            exact absurd heu.symm hut
        · exact he
      have hmine := h.lock u y hy hph loc e he' heu
      have htab : loc.table ≠ w.loc.table := by
        intro hc
        rw [hc] at hmine
        rcases hown with hno | ho
        · rw [hno] at hmine
          cases hmine
        · rw [ho] at hmine
          exact hut (Option.some.inj hmine).symm
      rw [Function.update_of_ne htab]
      exact hmine
  · rw [hV]
    intro loc u hu
    rw [hslot]
    split
    · rename_i hw
      rw [opsOf_append]
      by_cases hut : u = t
      · subst hut
        have hone : opsOf u [(u, w.op)] = [w.op] := by simp [opsOf]
        obtain ⟨hleg, hst⟩ := hbefore loc (by rw [hw])
        have hops : (opsAt loc x.writeSet).reverse = opsOf u (slotLog loc db.log) := by
          rw [← opsAt_reverse, h.stack u x ht hp, opsAt_writesOf]
        rw [hone, legalFrom_snoc, ← hops, ← hst, ← hw]
        rw [hw]
        exact ⟨hleg, by rw [← hw]; exact hop⟩
      · have hnil : opsOf u [(t, w.op)] = [] := by simp [opsOf, Ne.symm hut]
        rw [hnil, List.append_nil]
        exact h.losers loc u hu
    · exact h.losers loc u hu
  · intro loc
    rw [hslot]
    split
    · rw [opsWith_append, show opsWith (winner db.log) [(t, w.op)] = [] by simp [opsWith, hW],
        List.append_nil]
      exact h.winners loc
    · exact h.winners loc
  · rw [hV]
    exact h.unique
  · rw [hstore, howner, htxn]
    intro tab u y ho hy hph
    by_cases htab : tab = w.loc.table
    · rw [htab]
      exact huniq
    · rw [Function.update_of_ne htab] at ho
      have hkeep : ∀ loc, loc.table = tab → w.redo db.store loc = db.store loc := by
        intro loc hloc
        have hne : loc ≠ w.loc := fun hc => htab (by rw [← hloc, hc])
        rw [Write.redo_eq, Function.update_of_ne hne]
      by_cases hut : u = t
      · subst hut
        exact (h.uniqueOwn tab u x ho ht hp).congr hkeep
      · rw [Function.update_of_ne hut] at hy
        exact (h.uniqueOwn tab u y ho hy hph).congr hkeep

/-- When the holder of a table commits, its operations are the last ones of the winners in
every slot of the table. -/
theorem opsWith_commit (h : DataInv cat base db) (hl : LogInv cat first db) (ht : db.txns t = some x)
    (hp : x.phase = .running) {W : TxnId → Bool} (hWt : W t = true) (hW : ∀ u, u ≠ t → W u = winner db.log u)
    (hmine : db.owner loc.table = some t) :
    opsWith W (slotLog loc db.log) = opsWith (winner db.log) (slotLog loc db.log) ++
      (opsAt loc x.writeSet).reverse := by
  have hnt := hl.not_winner ht hp
  obtain ⟨A, B, hAB, hA, hB⟩ := h.last loc t hmine
  have hWA : opsWith W A = opsWith (winner db.log) A := by
    rw [opsWith, opsWith, List.filter_congr fun e he => hW e.1 (hA e he)]
  have hWB : opsWith W B = opsOf t B := by
    rw [opsWith, opsOf]
    congr 1
    refine List.filter_congr fun e he => ?_
    rw [hB e he, hWt]
    simp
  have hnB : opsWith (winner db.log) B = [] := by
    rw [opsWith, List.map_eq_nil_iff]
    refine List.filter_eq_nil_iff.2 fun e he => ?_
    rw [hB e he, hnt]
    simp
  have hops : (opsAt loc x.writeSet).reverse = opsOf t B := by
    rw [← opsAt_reverse, h.stack t x ht hp, opsAt_writesOf, hAB, opsOf_append,
      opsOf_eq_nil.2 hA, List.nil_append]
  rw [hops, hAB, opsWith_append, opsWith_append, hWA, hWB, hnB, List.append_nil]

/-- What it has written becomes what the winners have written. -/
theorem effects_commit (h : DataInv cat base db) (hl : LogInv cat first db) (ht : db.txns t = some x)
    (hp : x.phase = .running) {W : TxnId → Bool} (hWt : W t = true) (hW : ∀ u, u ≠ t → W u = winner db.log u)
    (loc : Loc) :
    (db.owner loc.table = some t → effects W base db.log loc = db.store loc) ∧
    (db.owner loc.table ≠ some t → effects W base db.log loc = effects (winner db.log) base db.log loc) ∧
    ((∃ e ∈ slotLog loc db.log, e.1 = t) ∨
      effects W base db.log loc = effects (winner db.log) base db.log loc) := by
  have hsame : (∀ e ∈ slotLog loc db.log, e.1 ≠ t) →
      effects W base db.log loc = effects (winner db.log) base db.log loc :=
    fun hne => effects_congr rfl fun e he => hW e.1 (hne e he)
  refine ⟨?_, ?_, ?_⟩
  · intro hmine
    obtain ⟨y, hy, -, hrest⟩ := h.held _ _ hmine
    rw [ht] at hy
    cases hy
    rw [(hrest loc rfl).2, effects_slot, opsWith_commit h hl ht hp hWt hW hmine,
      redoAll_append, ← effects_slot]
  · intro hother
    exact hsame fun e he hc => hother (h.lock t x ht (.inl hp) loc e he hc)
  · by_cases hex : ∃ e ∈ slotLog loc db.log, e.1 = t
    · exact .inl hex
    · push Not at hex
      exact .inr (hsame hex)

/-- A loser that has written a slot before the committing transaction would have been
overwritten by it. -/
theorem no_loser_before (h : DataInv cat base db) (hl : LogInv cat first db) (ht : db.txns t = some x)
    (hp : x.phase = .running) (hno : NoOverwrite (db.log ++ [r])) (hr : committed (db.log ++ [r]) t = true)
    {u : TxnId} (hu : winner db.log u = false) (hut : u ≠ t) (hmine : ∃ e ∈ slotLog loc db.log, e.1 = t) :
    ∀ e ∈ slotLog loc db.log, e.1 ≠ u := by
  rintro e he rfl
  obtain ⟨b, hb, hbt⟩ := hmine
  have howner := h.lock t x ht (.inl hp) loc b hb hbt
  have hab : aborted db.log e.1 = true := by
    have hph := hl.phase e.1
    cases hx : db.txns e.1 with
    | none => exact absurd rfl (hl.no_entry hx e he)
    | some y =>
        rw [hx] at hph
        obtain ⟨p, ws, ph⟩ := y
        cases ph with
        | running =>
            have := h.lock e.1 _ hx (.inl rfl) loc e he rfl
            rw [howner] at this
            exact absurd (Option.some.inj this).symm hut
        | aborting => exact hph.2
        | aborted => exact hph.2
        | committed =>
            have hc : committed db.log e.1 = true := hph
            rw [winner, hc, Bool.true_and, Bool.not_eq_false'] at hu
            exact hu
  obtain ⟨A, B, hAB, hA, hB⟩ := h.last loc t howner
  have heA : e ∈ A := by
    rw [hAB] at he
    exact (List.mem_append.1 he).resolve_right fun hc => hut (hB e hc)
  have hbB : b ∈ B := by
    rw [hAB] at hb
    exact (List.mem_append.1 hb).resolve_left fun hc => hA b hc hbt
  have hpair := hno.order loc
  rw [slotLog_append, hAB, List.append_assoc] at hpair
  have hlt := (List.pairwise_append.1 hpair).2.2 e heA b (List.mem_append_left _ hbB)
  have hab' : aborted (db.log ++ [r]) e.1 = true := by rw [aborted_append, hab, Bool.true_or]
  rw [hbt, hr] at hlt
  cases hlt hab'

/-- A transaction that was aborted before it had written anything is committed: nothing changes. -/
theorem DataInv.commit_aborted (h : DataInv cat base db) (hl : LogInv cat first db)
    (ht : db.txns t = some x) (hp : x.phase = .aborted) (hsilent : writesOf t db.log = []) :
    DataInv cat base (db.apply first (.commit t)) := by
  have hlog : (db.apply first (.commit t)).log =
      db.log ++ [⟨first + db.log.length, t, x.prevLsn, .commit⟩] := by
    simp [Db.apply, ht, Db.addLog, Db.unlockAll]
  have htxn : (db.apply first (.commit t)).txns =
      Function.update db.txns t (some ⟨first + db.log.length, [], .committed⟩) := by
    simp [Db.apply, ht, Db.addLog, Db.unlockAll]
  have hgone : ¬ (x.phase = .running ∨ x.phase = .aborting) := by
    rw [hp]
    rintro (hc | hc) <;> cases hc
  -- its locks went with the end of the abort
  have hmine : ∀ tab, db.owner tab ≠ some t := by
    intro tab ho
    obtain ⟨y, hy, hph, -⟩ := h.held tab t ho
    rw [ht] at hy
    cases hy
    exact hgone hph
  have howner : (db.apply first (.commit t)).owner = db.owner := by
    funext tab
    simp only [Db.apply, ht]
    exact if_neg (hmine tab)
  have hab : aborted db.log t = true := by
    have hph := hl.phase t
    rw [ht] at hph
    obtain ⟨p, ws, ph⟩ := x
    cases show ph = .aborted from hp
    exact hph.2
  have hwin : winner (db.apply first (.commit t)).log = winner db.log := by
    funext u
    rw [hlog, winner, winner, committed_append, aborted_append]
    by_cases hu : u = t
    · rw [hu, hab]
      simp
    · simp [Ne.symm hu]
  refine h.addRecord hlog rfl hwin (by simp [Db.apply, ht, Db.addLog, Db.unlockAll]) howner ?_ ?_
  · intro u z hz hph
    have hut : u ≠ t := by
      rintro rfl
      rw [ht] at hz
      cases hz
      exact hgone hph
    exact ⟨z, by rw [htxn, Function.update_of_ne hut]; exact hz, hph, rfl⟩
  · rw [htxn]
    intro u y hy
    by_cases hu : u = t
    · subst hu
      rw [Function.update_self] at hy
      cases hy
      exact .silent rfl hsilent hmine
    · rw [Function.update_of_ne hu] at hy
      exact .same hy rfl id id

theorem DataInv.commit (h : DataInv cat base db) (hl : LogInv cat first db)
    (hlegal : db.Legal cat (.commit t)) (hno : NoOverwrite (db.apply first (.commit t)).log) :
    DataInv cat base (db.apply first (.commit t)) := by
  obtain ⟨x, ht, hphase⟩ := hlegal
  have hlog : (db.apply first (.commit t)).log =
      db.log ++ [⟨first + db.log.length, t, x.prevLsn, .commit⟩] := by
    simp [Db.apply, ht, Db.addLog, Db.unlockAll]
  have hstore : (db.apply first (.commit t)).store = db.store := by
    simp [Db.apply, ht, Db.addLog, Db.unlockAll]
  have howner : (db.apply first (.commit t)).owner = fun tab => if db.owner tab = some t then none
      else db.owner tab := by
    simp only [Db.apply, ht]
    rfl
  have htxn : (db.apply first (.commit t)).txns =
      Function.update db.txns t (some ⟨first + db.log.length, [], .committed⟩) := by
    simp [Db.apply, ht, Db.addLog, Db.unlockAll]
  rw [hlog] at hno
  have hcommit : committed (db.log ++ [⟨first + db.log.length, t, x.prevLsn, .commit⟩]) t = true := by
    rw [committed_append]
    simp [LogBody.isCommit]
  have hslot : ∀ loc, slotLog loc (db.log ++ [⟨first + db.log.length, t, x.prevLsn, .commit⟩]) =
      slotLog loc db.log :=
    fun loc => slotLog_snoc_none rfl
  rcases hphase with hp | hab
  swap
  · refine h.commit_aborted hl ht hab ?_
    by_contra hne
    obtain ⟨w, hw⟩ := List.exists_mem_of_ne_nil _ hne
    obtain ⟨r, hr, hrw⟩ := List.mem_filterMap.1 hw
    obtain ⟨hr, htid⟩ := List.mem_filter.1 hr
    have hentry : (t, w.op) ∈ slotLog w.loc db.log :=
      mem_slotLog.2 ⟨r, hr, w, hrw, rfl, by rw [of_decide_eq_true htid]⟩
    have hph := hl.phase t
    rw [ht] at hph
    obtain ⟨p, ws, ph⟩ := x
    cases show ph = .aborted from hab
    have := hno.once w.loc _ (by rw [hslot]; exact hentry) (by rw [aborted_append, hph.2, Bool.true_or])
    rw [hcommit] at this
    cases this
  have hrun := hl.running ht hp
  -- the winners gain the committing transaction
  have hWt : winner (db.log ++ [⟨first + db.log.length, t, x.prevLsn, .commit⟩]) t = true := by
    rw [winner, hcommit, aborted_append, hrun.2]
    simp [LogBody.isAbort]
  have hW : ∀ u, u ≠ t → winner (db.log ++ [⟨first + db.log.length, t, x.prevLsn, .commit⟩]) u =
      winner db.log u := by
    intro u hu
    rw [winner, winner, committed_append, aborted_append, decide_eq_false (Ne.symm hu)]
    simp
  have hV : ∀ loc, effects (winner (db.log ++ [⟨first + db.log.length, t, x.prevLsn, .commit⟩])) base
      (db.log ++ [⟨first + db.log.length, t, x.prevLsn, .commit⟩]) loc =
      effects (winner (db.log ++ [⟨first + db.log.length, t, x.prevLsn, .commit⟩])) base db.log loc :=
    fun loc => effects_congr (hslot loc) fun _ _ => rfl
  have hcases := effects_commit h hl ht hp hWt hW
  have htxn' : ∀ u y, u ≠ t →
    Function.update db.txns t (some ⟨first + db.log.length, [], .committed⟩) u = some y →
      db.txns u = some y := by
    intro u y hu hy
    rwa [Function.update_of_ne hu] at hy
  have hne : ∀ u y, Function.update db.txns t (some ⟨first + db.log.length, [], .committed⟩) u = some y →
      y.phase = .running ∨ y.phase = .aborting → u ≠ t := by
    rintro u y hy hph rfl
    rw [Function.update_self] at hy
    cases hy
    rcases hph with hph | hph <;> cases hph
  refine ⟨?_, ?_, ?_, ?_, ?_, ?_, ?_, ?_, ?_, ?_⟩ <;> try simp only [hlog]
  · rw [hstore, howner]
    intro loc hloc
    rw [hV]
    by_cases hmine : db.owner loc.table = some t
    · exact ((hcases loc).1 hmine).symm
    · rw [(hcases loc).2.1 hmine]
      simp only [hmine, if_false] at hloc
      exact h.free loc hloc
  · rw [hstore, howner, htxn]
    intro tab u hu
    by_cases hmine : db.owner tab = some t
    · simp [hmine] at hu
    · simp only [hmine, if_false] at hu
      obtain ⟨y, hy, hph, hrest⟩ := h.held tab u hu
      have hut : u ≠ t := fun hc => hmine (hc ▸ hu)
      refine ⟨y, by rw [Function.update_of_ne hut]; exact hy, hph, ?_⟩
      intro loc hloc
      rw [hV, (hcases loc).2.1 (by rw [hloc]; exact hmine)]
      exact hrest loc hloc
  · rw [howner]
    intro loc u hu
    rw [hslot]
    by_cases hmine : db.owner loc.table = some t
    · simp [hmine] at hu
    · simp only [hmine, if_false] at hu
      exact h.last loc u hu
  · rw [htxn]
    intro u y hy hph
    have hut := hne u y hy (.inl hph)
    rw [writesOf_snoc, if_neg (Ne.symm hut)]
    exact h.stack u y (htxn' u y hut hy) hph
  · rw [htxn]
    intro u y hy w hw
    by_cases hut : u = t
    · subst hut
      rw [Function.update_self] at hy
      cases hy
      cases hw
    · rw [hslot]
      exact h.logged u y (htxn' u y hut hy) w hw
  · rw [htxn, howner]
    intro u y hy hph loc e he heu
    rw [hslot] at he
    have hut := hne u y hy hph
    have hown := h.lock u y (htxn' u y hut hy) hph loc e he heu
    have hnt : ¬ db.owner loc.table = some t := fun hc => hut (Option.some.inj (hown.symm.trans hc))
    simp only [hnt, if_false]
    exact hown
  · intro loc u hu
    rw [hV, hslot]
    have hut : u ≠ t := by
      rintro rfl
      rw [hWt] at hu
      cases hu
    rw [hW u hut] at hu
    rcases (hcases loc).2.2 with hex | hsame
    · rw [opsOf_eq_nil.2 (no_loser_before h hl ht hp hno hcommit hu hut hex)]
      trivial
    · rw [hsame]
      exact h.losers loc u hu
  · intro loc
    rw [hslot]
    by_cases hmine : db.owner loc.table = some t
    · rw [opsWith_commit h hl ht hp hWt hW hmine, legalFrom_append, ← effects_slot]
      obtain ⟨y, hy, -, hrest⟩ := h.held _ _ hmine
      rw [ht] at hy
      cases hy
      exact ⟨h.winners loc, (hrest loc rfl).1⟩
    · have hsame : opsWith (winner (db.log ++ [⟨first + db.log.length, t, x.prevLsn, .commit⟩]))
        (slotLog loc db.log) =
          opsWith (winner db.log) (slotLog loc db.log) := by
        have hne : ∀ e ∈ slotLog loc db.log,
          e.1 ≠ t := fun e he hc => hmine (h.lock t x ht (.inl hp) loc e he hc)
        rw [opsWith, opsWith, List.filter_congr fun e he => hW e.1 (hne e he)]
      rw [hsame]
      exact h.winners loc
  · intro tab
    by_cases hmine : db.owner tab = some t
    · refine (h.uniqueOwn tab t x hmine ht hp).congr fun loc hloc => ?_
      rw [hV]
      exact (hcases loc).1 (by rw [hloc]; exact hmine)
    · refine (h.unique tab).congr fun loc hloc => ?_
      rw [hV]
      exact (hcases loc).2.1 (by rw [hloc]; exact hmine)
  · rw [hstore, howner, htxn]
    intro tab u y ho hy hph
    have hut := hne u y hy (.inl hph)
    by_cases hmine : db.owner tab = some t
    · simp [hmine] at ho
    · simp only [hmine, if_false] at ho
      exact h.uniqueOwn tab u y ho (htxn' u y hut hy) hph

theorem DataInv.abort (h : DataInv cat base db) (hl : LogInv cat first db)
    (hlegal : db.Legal cat (.abort t)) :
    DataInv cat base (db.apply first (.abort t)) := by
  obtain ⟨x, ht, hp⟩ := hlegal
  have hlog : (db.apply first (.abort t)).log =
      db.log ++ [⟨first + db.log.length, t, x.prevLsn, .abort⟩] := by
    simp [Db.apply, ht, Db.addLog]
  have htxn : (db.apply first (.abort t)).txns =
      Function.update db.txns t (some ⟨first + db.log.length, x.writeSet, .aborting⟩) := by
    simp [Db.apply, ht, Db.addLog]
  -- the transaction was no winner before
  have hwin : winner (db.apply first (.abort t)).log = winner db.log := by
    funext u
    rw [hlog, winner, winner, committed_append, aborted_append]
    by_cases hu : u = t
    · subst hu
      simp [(hl.running ht hp).1, LogBody.isCommit]
    · simp [Ne.symm hu]
  refine h.addRecord hlog rfl hwin (by simp [Db.apply, ht, Db.addLog])
    (by simp [Db.apply, ht, Db.addLog]) ?_ ?_
  · rw [htxn]
    intro u z hz hph
    by_cases hu : u = t
    · subst hu
      rw [ht] at hz
      cases hz
      exact ⟨_, Function.update_self _ _ _, .inr rfl, rfl⟩
    · exact ⟨z, by rw [Function.update_of_ne hu]; exact hz, hph, rfl⟩
  · rw [htxn]
    intro u y hy
    by_cases hu : u = t
    · subst hu
      rw [Function.update_self] at hy
      cases hy
      exact .same ht rfl (fun hc => by cases hc) fun _ => .inl hp
    · rw [Function.update_of_ne hu] at hy
      exact .same hy rfl id id

theorem DataInv.undo (h : DataInv cat base db) (hlegal : db.Legal cat (.undo t)) :
    DataInv cat base (db.apply first (.undo t)) := by
  obtain ⟨⟨prev, ws, ph⟩, ht, hp, hne⟩ := hlegal
  cases show ph = .aborting from hp
  obtain ⟨w, ws, rfl⟩ := List.exists_cons_of_ne_nil hne
  have hlog : (db.apply first (.undo t)).log = db.log := by simp [Db.apply, ht]
  have hstore : (db.apply first (.undo t)).store = w.undo db.store := by simp [Db.apply, ht]
  have howner : (db.apply first (.undo t)).owner = db.owner := by simp [Db.apply, ht]
  have htxn : (db.apply first (.undo t)).txns = Function.update db.txns t (some ⟨prev, ws, .aborting⟩) := by
    simp [Db.apply, ht]
  have hmine : db.owner w.loc.table = some t :=
    h.lock t _ ht (.inr rfl) w.loc _ (h.logged t _ ht w List.mem_cons_self) rfl
  have hother : ∀ loc, loc ≠ w.loc → w.undo db.store loc = db.store loc := by
    intro loc hloc
    rw [Write.undo_eq, Function.update_of_ne hloc]
  have hold : ∀ u y, Function.update db.txns t (some ⟨prev, ws, .aborting⟩) u = some y →
      ∃ z, db.txns u = some z ∧ (∀ v ∈ y.writeSet, v ∈ z.writeSet) ∧ z.phase = y.phase ∧
      (y.phase = .running → z = y) := by
    intro u y hy
    by_cases hu : u = t
    · subst hu
      rw [Function.update_self] at hy
      cases hy
      exact ⟨_, ht, fun v hv => List.mem_cons_of_mem _ hv, rfl, fun hc => by cases hc⟩
    · rw [Function.update_of_ne hu] at hy
      exact ⟨y, hy, fun _ hv => hv, rfl, fun _ => rfl⟩
  refine ⟨?_, ?_, ?_, ?_, ?_, ?_, ?_, ?_, ?_, ?_⟩ <;> try simp only [hlog]
  · rw [hstore, howner]
    intro loc hno
    rw [hother loc fun hc => by rw [hc, hmine] at hno; cases hno]
    exact h.free loc hno
  · rw [hstore, howner, htxn]
    intro tab u hu
    obtain ⟨y, hy, hph, hrest⟩ := h.held tab u hu
    by_cases hut : u = t
    · subst hut
      rw [ht] at hy
      cases hy
      refine ⟨_, Function.update_self _ _ _, .inr rfl, ?_⟩
      intro loc hloc
      obtain ⟨hleg, hst⟩ := hrest loc hloc
      simp only at hleg hst ⊢
      rw [opsAt_cons] at hleg hst
      by_cases hw : w.loc = loc
      · rw [if_pos hw, List.reverse_cons] at hleg hst
        rw [legalFrom_snoc] at hleg
        refine ⟨hleg.1, ?_⟩
        rw [Write.undo_eq, hw, Function.update_self, hst, redoAll_append]
        exact Op.undo_redo hleg.2
      · rw [if_neg hw] at hleg hst
        rw [hother loc (Ne.symm hw)]
        exact ⟨hleg, hst⟩
    · refine ⟨y, by rw [Function.update_of_ne hut]; exact hy, hph, ?_⟩
      intro loc hloc
      have hne : loc ≠ w.loc := by
        rintro rfl
        rw [hloc, hu] at hmine
        exact hut (Option.some.inj hmine)
      rw [hother loc hne]
      exact hrest loc hloc
  · rw [howner]
    exact h.last
  · rw [htxn]
    intro u y hy hph
    obtain ⟨z, hz, -, -, hrun⟩ := hold u y hy
    obtain rfl := hrun hph
    exact h.stack u z hz hph
  · rw [htxn]
    intro u y hy v hv
    obtain ⟨z, hz, hws, -⟩ := hold u y hy
    exact h.logged u z hz v (hws v hv)
  · rw [htxn, howner]
    intro u y hy hph loc e he heu
    obtain ⟨z, hz, -, hzp, -⟩ := hold u y hy
    exact h.lock u z hz (hzp ▸ hph) loc e he heu
  · exact h.losers
  · exact h.winners
  · exact h.unique
  · rw [hstore, howner, htxn]
    intro tab u y ho hy hph
    obtain ⟨z, hz, -, -, hrun⟩ := hold u y hy
    obtain rfl := hrun hph
    refine (h.uniqueOwn tab u z ho hz hph).congr fun loc hloc => hother loc ?_
    rintro rfl
    rw [hloc, ho] at hmine
    cases hmine
    rw [ht] at hz
    cases hz
    cases hph

theorem DataInv.release (h : DataInv cat base db) (hlegal : db.Legal cat (.release t)) :
    DataInv cat base (db.apply first (.release t)) := by
  obtain ⟨⟨prev, ws, ph⟩, ht, hp, hws⟩ := hlegal
  cases show ph = .aborting from hp
  cases show ws = [] from hws
  have hlog : (db.apply first (.release t)).log = db.log := by simp [Db.apply, ht, Db.unlockAll]
  have hstore : (db.apply first (.release t)).store = db.store := by simp [Db.apply, ht, Db.unlockAll]
  have howner : (db.apply first (.release t)).owner = fun tab => if db.owner tab = some t then none
      else db.owner tab := by
    simp only [Db.apply, ht]
    rfl
  have htxn : (db.apply first (.release t)).txns = Function.update db.txns t (some ⟨prev, [], .aborted⟩) := by
    simp [Db.apply, ht, Db.unlockAll]
  have hback : ∀ loc, db.owner loc.table = some t →
      db.store loc = effects (winner db.log) base db.log loc := by
    intro loc hmine
    obtain ⟨y, hy, -, hrest⟩ := h.held _ _ hmine
    rw [ht] at hy
    cases hy
    exact (hrest loc rfl).2
  have hold : ∀ u y, Function.update db.txns t (some ⟨prev, [], .aborted⟩) u = some y →
      y.phase = .running ∨ y.phase = .aborting → u ≠ t ∧ db.txns u = some y := by
    intro u y hy hph
    by_cases hu : u = t
    · subst hu
      rw [Function.update_self] at hy
      cases hy
      rcases hph with hph | hph <;> cases hph
    · rw [Function.update_of_ne hu] at hy
      exact ⟨hu, hy⟩
  refine ⟨?_, ?_, ?_, ?_, ?_, ?_, ?_, ?_, ?_, ?_⟩ <;> try simp only [hlog]
  · rw [hstore, howner]
    intro loc hloc
    by_cases hmine : db.owner loc.table = some t
    · exact hback loc hmine
    · simp only [hmine, if_false] at hloc
      exact h.free loc hloc
  · rw [hstore, howner, htxn]
    intro tab u hu
    by_cases hmine : db.owner tab = some t
    · simp [hmine] at hu
    · simp only [hmine, if_false] at hu
      obtain ⟨y, hy, hrest⟩ := h.held tab u hu
      have hut : u ≠ t := fun hc => hmine (hc ▸ hu)
      exact ⟨y, by rw [Function.update_of_ne hut]; exact hy, hrest⟩
  · rw [howner]
    intro loc u hu
    by_cases hmine : db.owner loc.table = some t
    · simp [hmine] at hu
    · simp only [hmine, if_false] at hu
      exact h.last loc u hu
  · rw [htxn]
    intro u y hy hph
    exact h.stack u y (hold u y hy (.inl hph)).2 hph
  · rw [htxn]
    intro u y hy w hw
    by_cases hu : u = t
    · subst hu
      rw [Function.update_self] at hy
      cases hy
      cases hw
    · rw [Function.update_of_ne hu] at hy
      exact h.logged u y hy w hw
  · rw [htxn, howner]
    intro u y hy hph loc e he heu
    obtain ⟨hut, hy'⟩ := hold u y hy hph
    have hown := h.lock u y hy' hph loc e he heu
    have hnt : ¬ db.owner loc.table = some t := fun hc => hut (Option.some.inj (hown.symm.trans hc))
    simp only [hnt, if_false]
    exact hown
  · exact h.losers
  · exact h.winners
  · exact h.unique
  · rw [hstore, howner, htxn]
    intro tab u y ho hy hph
    obtain ⟨hut, hy'⟩ := hold u y hy (.inl hph)
    by_cases hmine : db.owner tab = some t
    · simp [hmine] at ho
    · simp only [hmine, if_false] at ho
      exact h.uniqueOwn tab u y ho hy' hph

theorem DataInv.apply (h : DataInv cat base db) (hl : LogInv cat first db) {e : Event}
    (hlegal : db.Legal cat e) (hno : NoOverwrite (db.apply first e).log) :
    DataInv cat base (db.apply first e) := by
  cases e with
  | begin t => exact h.begin hl hlegal
  | write t w => exact h.write hl hlegal
  | commit t => exact h.commit hl hlegal hno
  | abort t => exact h.abort hl hlegal
  | undo t => exact h.undo hlegal
  | release t => exact h.release hlegal

end Rmdb
