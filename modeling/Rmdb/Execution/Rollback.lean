import Rmdb.Execution.Statement

namespace Rmdb

open Exec

variable {n : Nat} {K : Fin n → Type} [∀ i, IxKey (K i)] [∀ i, LinearOrder (K i)] [∀ i, LawfulIxKey (K i)]
  {tab : TabMeta n K} {L L₀ : Rows} {r : Rid} {record old new : Row} {s : TableState n K}
  {W : List WriteRecord}

section UndoKeys

variable (tab) in
omit [∀ i, LinearOrder (K i)] [∀ i, LawfulIxKey (K i)] in
/-- The index loop of `abort`: what one round does to its index, it does to all of them. -/
theorem undoKeys_spec {w : WriteRecord} {Q : ∀ i, IxIndexHandle (K i) → Prop}
    (is : List (Fin n)) (hnd : is.Nodup)
    (hstep : ∀ i ∈ is, ∀ s' : TableState n K, s'.slots = s.slots → s'.ihs i = s.ihs i →
      ∃ ih, (undoKey tab w i).run s' = .ok () { s' with ihs := Function.update s'.ihs i ih } ∧ Q i ih) :
    ∃ ihs, (undoKeys tab w is).run s = .ok () { s with ihs := ihs } ∧ (∀ i ∈ is, Q i (ihs i)) ∧
      ∀ i, i ∉ is → ihs i = s.ihs i := by
  induction is generalizing s with
  | nil => exact ⟨s.ihs, rfl, nofun, fun _ _ => rfl⟩
  | cons i is iht =>
      obtain ⟨hnot, hnd⟩ := List.nodup_cons.1 hnd
      obtain ⟨ih, hrun, hQ⟩ := hstep i List.mem_cons_self s rfl rfl
      obtain ⟨ihs, hrest, hin, hout⟩ := iht (s := { s with ihs := Function.update s.ihs i ih }) hnd (by
        intro j hj s' hslots hihs
        refine hstep j (List.mem_cons_of_mem _ hj) s' hslots ?_
        rw [hihs]
        exact Function.update_of_ne (show j ≠ i from fun hc => hnot (hc ▸ hj)) _ _)
      refine ⟨ihs, by rw [undoKeys, bind_ok hrun]; exact hrest, ?_, ?_⟩
      · intro j hj
        rcases List.mem_cons.1 hj with rfl | hj
        · rw [hout j hnot]
          simp only [Function.update_self]
          exact hQ
        · exact hin j hj
      · intro j hj
        have hji : j ≠ i := by
          rintro rfl
          exact hj List.mem_cons_self
        rw [hout j fun hc => hj (List.mem_cons_of_mem _ hc)]
        exact Function.update_of_ne hji _ _

omit [∀ i, LinearOrder (K i)] [∀ i, LawfulIxKey (K i)] in
theorem undoKey_insert {i : Fin n} {ih : IxIndexHandle (K i)} {b : Bool}
    (h : (s.ihs i).deleteEntry (tab.key i (s.slots r)) (some r) = .ok (b, ih)) :
    (undoKey tab (.insertTuple r) i).run s = .ok () { s with ihs := Function.update s.ihs i ih } := by
  have hget : (getRecord r : Exec K Row).run s = .ok (s.slots r) s := rfl
  rw [undoKey, bind_ok hget]
  exact deleteEntry_ok h

omit [∀ i, LinearOrder (K i)] [∀ i, LawfulIxKey (K i)] in
theorem undoKey_delete {i : Fin n} {ih : IxIndexHandle (K i)} {p : Int} {b : Bool}
    (h : (s.ihs i).insertEntry (tab.key i old) r = .ok (p, b, ih)) :
    (undoKey tab (.deleteTuple r old) i).run s = .ok () { s with ihs := Function.update s.ihs i ih } := by
  rw [undoKey, bind_ok (insertEntry_ok h)]
  rfl

omit [∀ i, LinearOrder (K i)] [∀ i, LawfulIxKey (K i)] in
theorem undoKey_update {i : Fin n} {ih1 ih2 : IxIndexHandle (K i)} {p : Int} {b c : Bool}
    (h1 : (s.ihs i).deleteEntry (tab.key i (s.slots r)) (some r) = .ok (b, ih1))
    (h2 : ih1.insertEntry (tab.key i old) r = .ok (p, c, ih2)) :
    (undoKey tab (.updateTuple r old) i).run s = .ok () { s with ihs := Function.update s.ihs i ih2 } := by
  have hget : (getRecord r : Exec K Row).run s = .ok (s.slots r) s := rfl
  have h2' : (({ s with ihs := Function.update s.ihs i ih1 } : TableState n K).ihs i).insertEntry
    (tab.key i old) r =
      .ok (p, c, ih2) := by
    simp only [Function.update_self]
    exact h2
  rw [undoKey, bind_ok hget, bind_ok (deleteEntry_ok h1), bind_ok (insertEntry_ok h2')]
  simp only [Function.update_idem]
  rfl

/-- Undoing an update in one index, whether the update has reached it or not. -/
theorem IndexOf.unmove {k : Type} [LinearOrder k] [IxKey k] [LawfulIxKey k]
    {ih : IxIndexHandle k} {key : Row → k}
    (h : IndexOf ih key L ∨ IndexOf ih key (Function.update L r (some new))) (hr : L r = some old)
    (huniq : ∀ q row, L q = some row → key row = key old → q = r) (hother : ∃ q, q ≠ r ∧ L q ≠ none) :
    ∃ ih1 ih2 p b, ih.deleteEntry (key new) (some r) = .ok (true, ih1) ∧
      ih1.insertEntry (key old) r = .ok (p, b, ih2) ∧ IndexOf ih2 key L := by
  obtain ⟨q, hqr, hq⟩ := hother
  have hback : Function.update (Function.update L r none) r (some old) = L := by
    rw [Function.update_idem]
    exact Function.update_eq_self_iff.2 hr.symm
  have hfresh : ∀ q row, Function.update L r none q = some row → key row ≠ key old := by
    intro q row hq hk
    by_cases hqr : q = r
    · rw [hqr, Function.update_self] at hq
      cases hq
    · rw [Function.update_of_ne hqr] at hq
      exact hqr (huniq q row hq hk)
  rcases h with h | h
  · by_cases hk : key old = key new
    · -- the row's own entry is taken out and put back
      obtain ⟨ih1, h1, hi1⟩ := h.delete hr ⟨q, hqr, hq⟩ (.inr rfl)
      obtain ⟨p, ih2, h2, hi2⟩ := hi1.insert (Function.update_self ..) hfresh
      exact ⟨ih1, ih2, p, true, by rw [← hk]; exact h1, h2, hback ▸ hi2⟩
    · obtain ⟨ih1, h1, hi1⟩ := h.delete_other (r := r) (k := key new) ⟨q, hq⟩ (by
        intro row hrow
        rw [hr] at hrow
        cases hrow
        exact hk)
      obtain ⟨p, ih2, h2, hi2⟩ := hi1.insert_dup hr rfl r
      exact ⟨ih1, ih2, p, false, h1, h2, hi2⟩
  · obtain ⟨ih1, h1, hi1⟩ :=
      h.delete (Function.update_self ..) ⟨q, hqr, by rw [Function.update_of_ne hqr]; exact hq⟩ (.inr rfl)
    rw [Function.update_idem] at hi1
    obtain ⟨p, ih2, h2, hi2⟩ := hi1.insert (Function.update_self ..) hfresh
    exact ⟨ih1, ih2, p, true, h1, h2, hback ▸ hi2⟩

end UndoKeys

section UndoWrite

omit [∀ i, LinearOrder (K i)] [∀ i, LawfulIxKey (K i)] in
theorem undoWrite_insert_run {ihs : ∀ i, IxIndexHandle (K i)}
    (h : (undoKeys tab (.insertTuple r) (List.finRange n)).run s = .ok () { s with ihs := ihs }) :
    (undoWrite tab (.insertTuple r)).run s = .ok () ⟨Function.update s.bitmap r false, s.slots,
      ihs, s.writeSet⟩ := by
  exact bind_ok h

omit [∀ i, LinearOrder (K i)] [∀ i, LawfulIxKey (K i)] in
theorem undoWrite_update_run {ihs : ∀ i, IxIndexHandle (K i)}
    (h : (undoKeys tab (.updateTuple r old) (List.finRange n)).run s = .ok () { s with ihs := ihs }) :
    (undoWrite tab (.updateTuple r old)).run s = .ok () ⟨s.bitmap, Function.update s.slots r old,
      ihs, s.writeSet⟩ := by
  exact bind_ok h

omit [∀ i, IxKey (K i)] [∀ i, LinearOrder (K i)] [∀ i, LawfulIxKey (K i)] in
theorem live_of_index (i : Fin n) {p : Prop} (h : n ≠ 0 → p) : p := h fun hn => (hn ▸ i).elim0

theorem undoWrite_insert (h : Agrees tab L s) (hr : L r = some record)
    (hother : n ≠ 0 → ∃ q, q ≠ r ∧ L q ≠ none) :
    ∃ s', (undoWrite tab (.insertTuple r)).run s = .ok () s' ∧ s'.writeSet = s.writeSet ∧
      Agrees tab (Function.update L r none) s' := by
  obtain ⟨ihs, hrun, hih, -⟩ := undoKeys_spec tab (s := s) (w := .insertTuple r)
    (Q := fun i ih => IndexOf ih (tab.key i) (Function.update L r none)) (List.finRange n)
      (List.nodup_finRange n) (by
      intro i _ s' hslots hihs
      obtain ⟨ih, hdel, hih⟩ := (h.index i).delete hr (live_of_index i hother) (.inr rfl)
      refine ⟨ih, undoKey_insert (b := true) ?_, hih⟩
      rw [hihs, hslots, slot_eq h.rows hr]
      exact hdel)
  exact ⟨_, undoWrite_insert_run hrun, rfl, rows_delete h.rows, fun i => hih i (List.mem_finRange i)⟩

/-- The record of a failed insert: the slot is free again, whatever its bytes are. -/
theorem undoWrite_failed (h : Agrees tab L s) (hr : L r = none) (hlive : ∃ q, L q ≠ none) :
    ∃ s', (undoWrite tab (.insertTuple r)).run s = .ok () s' ∧ s'.writeSet = s.writeSet ∧
      Agrees tab L s' := by
  obtain ⟨ihs, hrun, hih, -⟩ := undoKeys_spec tab (s := s) (w := .insertTuple r)
    (Q := fun i ih => IndexOf ih (tab.key i) L) (List.finRange n) (List.nodup_finRange n) (by
      intro i _ s' hslots hihs
      obtain ⟨ih, hdel, hih⟩ := (h.index i).delete_other (r := r) (k := tab.key i (s.slots r)) hlive (by
        intro row hrow
        rw [hr] at hrow
        cases hrow)
      refine ⟨ih, undoKey_insert (b := true) ?_, hih⟩
      rw [hihs, hslots]
      exact hdel)
  refine ⟨_, undoWrite_insert_run hrun, rfl, ?_, fun i => hih i (List.mem_finRange i)⟩
  exact (rows_delete h.rows).trans (Function.update_eq_self_iff.2 hr.symm)

theorem undoWrite_insert_last (h : Agrees tab L s) (hr : L r = some record)
    (honly : ∀ q, q ≠ r → L q = none) :
    ∃ s', (undoWrite tab (.insertTuple r)).run s = .ok () s' ∧ s'.writeSet = s.writeSet ∧
      s'.rows = Function.update L r none ∧ ∀ i, Emptied (s'.ihs i) := by
  obtain ⟨ihs, hrun, hih, -⟩ := undoKeys_spec tab (s := s) (w := .insertTuple r)
    (Q := fun _ ih => Emptied ih) (List.finRange n) (List.nodup_finRange n) (by
      intro i _ s' hslots hihs
      obtain ⟨ih, hdel, hih⟩ := (h.index i).delete_last hr honly (.inr rfl)
      refine ⟨ih, undoKey_insert (b := true) ?_, hih⟩
      rw [hihs, hslots, slot_eq h.rows hr]
      exact hdel)
  exact ⟨_, undoWrite_insert_run hrun, rfl, rows_delete h.rows, fun i => hih i (List.mem_finRange i)⟩

theorem undoWrite_delete (h : Agrees tab L s) (hr : L r = none)
    (huniq : Uniq tab (Function.update L r (some old))) :
    ∃ s', (undoWrite tab (.deleteTuple r old)).run s = .ok () s' ∧ s'.writeSet = s.writeSet ∧
      Agrees tab (Function.update L r (some old)) s' := by
  have hins : (insertRecord r old : Exec K Unit).run s = .ok () ⟨Function.update s.bitmap r true,
    Function.update s.slots r old, s.ihs, s.writeSet⟩ := rfl
  obtain ⟨ihs, hrun, hih, -⟩ := undoKeys_spec tab (w := .deleteTuple r old)
    (s := ⟨Function.update s.bitmap r true, Function.update s.slots r old, s.ihs, s.writeSet⟩)
    (Q := fun i ih => IndexOf ih (tab.key i) (Function.update L r (some old))) (List.finRange n)
      (List.nodup_finRange n) (by
      intro i _ s' _ hihs
      have hnew : ∀ q row, L q = some row → tab.key i row ≠ tab.key i old := by
        intro q row hq hkey
        have hqr : q ≠ r := by
          rintro rfl
          rw [hr] at hq
          cases hq
        refine hqr (huniq i q r row old ?_ (Function.update_self ..) hkey)
        rw [Function.update_of_ne hqr]
        exact hq
      obtain ⟨p, ih, hput, hih⟩ := (h.index i).insert hr hnew
      refine ⟨ih, undoKey_delete (p := p) (b := true) ?_, hih⟩
      rw [hihs]
      exact hput)
  refine ⟨⟨Function.update s.bitmap r true, Function.update s.slots r old, ihs, s.writeSet⟩, ?_, rfl,
    rows_insert h.rows,
    fun i => hih i (List.mem_finRange i)⟩
  rw [undoWrite, bind_ok hins, bind_ok hrun]
  rfl

theorem undoWrite_update (h : Half tab L r old new s) (hother : n ≠ 0 → ∃ q, q ≠ r ∧ L q ≠ none) :
    ∃ s', (undoWrite tab (.updateTuple r old)).run s = .ok () s' ∧ s'.writeSet = s.writeSet ∧
      Agrees tab L s' := by
  obtain ⟨ihs, hrun, hih, -⟩ := undoKeys_spec tab (s := s) (w := .updateTuple r old)
    (Q := fun i ih => IndexOf ih (tab.key i) L) (List.finRange n) (List.nodup_finRange n) (by
      intro i _ s' hslots hihs
      obtain ⟨ih1, ih2, p, b, hdel, hput, hih⟩ := IndexOf.unmove (h.index i) h.before
        (fun q row hq hk => h.uniq i q r row old hq h.before hk) (live_of_index i hother)
      refine ⟨ih2, undoKey_update (b := true) (p := p) (c := b) ?_ hput, hih⟩
      rw [hihs, hslots, slot_eq h.rows (Function.update_self ..)]
      exact hdel)
  refine ⟨_, undoWrite_update_run hrun, rfl, ?_, fun i => hih i (List.mem_finRange i)⟩
  refine (rows_update h.rows (by rw [Function.update_self]; simp)).trans ?_
  rw [Function.update_idem]
  exact Function.update_eq_self_iff.2 h.before.symm

end UndoWrite

section Rolls

/-- The row is not the only one; a table without indexes does not care. -/
def Other (n : Nat) (L : Rows) (r : Rid) : Prop := n ≠ 0 → ∃ q, q ≠ r ∧ L q ≠ none

/-- The write set `W` leads from the rows `L₀` to the rows of the last argument, and no write
took out or changed the only row of an indexed table. -/
inductive Rolls (tab : TabMeta n K) (L₀ : Rows) : List WriteRecord → Rows → Prop
  | start : Rolls tab L₀ [] L₀
  | insert {W : List WriteRecord} {L : Rows} {r : Rid} {record : Row} : Rolls tab L₀ W L → L r = none →
      Rolls tab L₀ (.insertTuple r :: W) (Function.update L r (some record))
  | failed {W : List WriteRecord} {L : Rows} {r : Rid} : Rolls tab L₀ W L → L r = none → (∃ q, L q ≠ none) →
      Rolls tab L₀ (.insertTuple r :: W) L
  | delete {W : List WriteRecord} {L : Rows} {r : Rid} {record : Row} : Rolls tab L₀ W L → L r = some record →
      Other n L r → Uniq tab L →
      Rolls tab L₀ (.deleteTuple r record :: W) (Function.update L r none)
  | update {W : List WriteRecord} {L : Rows} {r : Rid} {old new : Row} : Rolls tab L₀ W L → L r = some old →
      Other n L r → Uniq tab L →
      Rolls tab L₀ (.updateTuple r old :: W) (Function.update L r (some new))

omit [∀ i, IxKey (K i)] [∀ i, LinearOrder (K i)] [∀ i, LawfulIxKey (K i)] in
theorem keptBy_rolls : KeptBy tab (fun L W => Rolls tab L₀ W L) (Other n) where
  insert := .insert
  failed := .failed
  delete := .delete
  update := .update

omit [∀ i, IxKey (K i)] [∀ i, LinearOrder (K i)] [∀ i, LawfulIxKey (K i)] in
theorem Rolls.live (h : Rolls tab L₀ W L) (hn : n ≠ 0) : (∃ q, L q ≠ none) ∨ W = [] := by
  cases h with
  | start => exact .inr rfl
  | @insert _ _ r => exact .inl ⟨r, by rw [Function.update_self]; simp⟩
  | failed _ _ hlive => exact .inl hlive
  | delete _ _ hother _ =>
      obtain ⟨q, hqr, hq⟩ := hother hn
      exact .inl ⟨q, by rw [Function.update_of_ne hqr]; exact hq⟩
  | @update _ _ r => exact .inl ⟨r, by rw [Function.update_self]; simp⟩

/-- Table and indexes agree, or the table is empty and its indexes have lost their root. -/
structure Consistent (tab : TabMeta n K) (L : Rows) (s : TableState n K) : Prop where
  rows : s.rows = L
  index : (∀ i, IndexOf (s.ihs i) (tab.key i) L) ∨ (∀ q, L q = none) ∧ ∀ i, Emptied (s.ihs i)

omit [∀ i, LawfulIxKey (K i)] in
theorem Agrees.consistent (h : Agrees tab L s) : Consistent tab L s := ⟨h.rows, .inl h.index⟩

omit [∀ i, LawfulIxKey (K i)] in
theorem Consistent.agrees (h : Consistent tab L s) (hlive : ∃ q, L q ≠ none) : Agrees tab L s := by
  refine ⟨h.rows, h.index.resolve_right ?_⟩
  rintro ⟨hnone, -⟩
  obtain ⟨q, hq⟩ := hlive
  exact hq (hnone q)

omit [∀ i, IxKey (K i)] [∀ i, LawfulIxKey (K i)] in
theorem Agrees.half (h : Agrees tab (Function.update L r (some new)) s) (hr : L r = some old)
    (huniq : Uniq tab L) :
    Half tab L r old new s := ⟨h.rows, hr, huniq, fun i => .inr (h.index i)⟩

omit [∀ i, LinearOrder (K i)] [∀ i, LawfulIxKey (K i)] in
theorem undoWrites_cons {w : WriteRecord} {s' : TableState n K}
    (h : (undoWrite tab w).run { s with writeSet := W } = .ok () s') :
    (undoWrites tab (w :: W)).run s = (undoWrites tab W).run s' := by
  have hpop : (modify fun s => { s with writeSet := W } : Exec K Unit).run s =
    .ok () { s with writeSet := W } := rfl
  rw [undoWrites, bind_ok hpop, bind_ok h]

omit [∀ i, IxKey (K i)] [∀ i, LawfulIxKey (K i)] in
theorem Agrees.pop (h : Agrees tab L s) : Agrees tab L { s with writeSet := W } := ⟨h.rows, h.index⟩

/-- Undoing a write set brings the rows and the entries back. -/
theorem undoWrites_spec (hR : Rolls tab L₀ W L) (h : Agrees tab L s) (W₀ : List WriteRecord) :
    ∃ s', Consistent tab L₀ s' ∧ (undoWrites tab (W ++ W₀)).run s = (undoWrites tab W₀).run s' := by
  induction hR generalizing s with
  | start => exact ⟨s, h.consistent, rfl⟩
  | @insert W L r record hR hr iht =>
      have hback : Function.update (Function.update L r (some record)) r none = L := by
        rw [Function.update_idem]
        exact Function.update_eq_self_iff.2 hr.symm
      by_cases hother : Other n L r
      · obtain ⟨s1, hrun, -, hA⟩ := undoWrite_insert (h.pop (W := W ++ W₀)) (Function.update_self ..) (by
          intro hn
          obtain ⟨q, hqr, hq⟩ := hother hn
          exact ⟨q, hqr, by rw [Function.update_of_ne hqr]; exact hq⟩)
        rw [hback] at hA
        rw [List.cons_append, undoWrites_cons hrun]
        exact iht hA
      · -- the first write of a transaction on an empty table
        have hn : n ≠ 0 := fun hn => hother fun hc => absurd hn hc
        have hnone : ∀ q, q ≠ r → L q = none := by
          intro q hqr
          by_contra hq
          exact hother fun _ => ⟨q, hqr, hq⟩
        have hempty : ∀ q, L q = none := by
          intro q
          by_cases hqr : q = r
          · rw [hqr, hr]
          · exact hnone q hqr
        have hW : W = [] := (hR.live hn).resolve_left fun ⟨q, hq⟩ => hq (hempty q)
        obtain ⟨s1, hrun, -, hrows, hem⟩ :=
          undoWrite_insert_last (h.pop (W := W ++ W₀)) (Function.update_self ..) (by
          intro q hqr
          rw [Function.update_of_ne hqr]
          exact hnone q hqr)
        rw [hback] at hrows
        rw [List.cons_append, undoWrites_cons hrun]
        subst hW
        cases hR
        exact ⟨s1, ⟨hrows, .inr ⟨hempty, hem⟩⟩, rfl⟩
  | failed _ hr hlive iht =>
      obtain ⟨s1, hrun, -, hA⟩ := undoWrite_failed h.pop hr hlive
      rw [List.cons_append, undoWrites_cons hrun]
      exact iht hA
  | @delete W L r record hR hr hother huniq iht =>
      have hback : Function.update (Function.update L r none) r (some record) = L := by
        rw [Function.update_idem]
        exact Function.update_eq_self_iff.2 hr.symm
      obtain ⟨s1, hrun, -, hA⟩ :=
        undoWrite_delete h.pop (Function.update_self ..) (by rw [hback]; exact huniq)
      rw [hback] at hA
      rw [List.cons_append, undoWrites_cons hrun]
      exact iht hA
  | update _ hr hother huniq iht =>
      obtain ⟨s1, hrun, -, hA⟩ := undoWrite_update (h.pop.half hr huniq) hother
      rw [List.cons_append, undoWrites_cons hrun]
      exact iht hA

/-- The same for a transaction whose last update has stopped half way. -/
theorem undoWrites_half (h : Half tab L r old new s) (hother : Other n L r) :
    ∃ s', Agrees tab L s' ∧ (undoWrites tab (.updateTuple r old :: W)).run s = (undoWrites tab W).run s' := by
  obtain ⟨s1, hrun, -, hA⟩ :=
    undoWrite_update (s := { s with writeSet := W }) ⟨h.rows, h.before, h.uniq, h.index⟩ hother
  exact ⟨s1, hA, undoWrites_cons hrun⟩

end Rolls

end Rmdb
