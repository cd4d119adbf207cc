import Rmdb.Execution.Rollback

namespace Rmdb

open Exec IxManager

variable {n : Nat} {K : Fin n → Type} [∀ i, IxKey (K i)]

section Model

variable (tab : TabMeta n K)

/-- One statement of an explicit transaction, and whether the transaction goes on after it: it
is rolled back by a `TransactionAbortException` and by no other error. -/
def DmlPlan.after (st : DmlPlan) (s : TableState n K) : Bool × TableState n K :=
  match (st.exec tab).run s with
  | .ok _ s' => (true, s')
  | .error .transactionAbort s' => (false, s')
  | .error _ s' => (true, s')

def runStatements : List DmlPlan → TableState n K → TableState n K
  | [], s => s
  | st :: sts, s => if (st.after tab s).1 then runStatements sts (st.after tab s).2 else (st.after tab s).2

def AllAt (P : DmlPlan → TableState n K → Prop) : List DmlPlan → TableState n K → Prop
  | [], _ => True
  | st :: sts, s => P st s ∧ ((st.after tab s).1 = true → AllAt P sts (st.after tab s).2)

def DmlPlan.Legal (st : DmlPlan) (s : TableState n K) : Prop :=
  match st with
  | .insert values => (values.map Prod.snd).Nodup ∧ ∀ v ∈ values, s.rows v.2 = none
  | .update _ rids => rids.Nodup ∧ ∀ r ∈ rids, s.rows r ≠ none
  | .delete rids => rids.Nodup ∧ ∀ r ∈ rids, s.rows r ≠ none

/-- An index of the table has lost its root page. -/
def Rootless (s : TableState n K) : Prop := ∃ i, (s.ihs i).fileHdr.rootPage = -1

instance (s : TableState n K) : Decidable (Rootless s) :=
  inferInstanceAs (Decidable (∃ i, (s.ihs i).fileHdr.rootPage = -1))

/-- An insert of a row finds the root of each index, an update does not touch the only row of
an indexed table, and a delete leaves a row. -/
def DmlPlan.Safe (st : DmlPlan) (s : TableState n K) : Prop :=
  match st with
  | .insert values => Rootless s → ∀ v ∈ values.head?, v.1 = none
  | .update _ rids => ∀ r ∈ rids, Other n s.rows r
  | .delete rids => n ≠ 0 → rids ≠ [] → ∃ q, q ∉ rids ∧ s.rows q ≠ none

/-- The abort does not throw, and brings back the rows and the entries of every index. -/
def Restores (s : TableState n K) (sts : List DmlPlan) : Prop :=
  ∃ s', (Exec.abort tab).run (runStatements tab sts s) = .ok () s' ∧ s'.rows = s.rows ∧
    ∀ i, ∃ m, Enumerates (s.ihs i) m ∧ Enumerates (s'.ihs i) m

end Model

variable [∀ i, LinearOrder (K i)] [∀ i, LawfulIxKey (K i)] {tab : TabMeta n K} {L L₀ : Rows}
  {r : Rid} {old new : Row} {s : TableState n K} {W : List WriteRecord} {st : DmlPlan} {sts : List DmlPlan}

section Forward

theorem IndexOf.root_ne {k : Type} [LinearOrder k] [IxKey k] [LawfulIxKey k]
    {ih : IxIndexHandle k} {key : Row → k} (h : IndexOf ih key L) : ih.fileHdr.rootPage ≠ -1 := by
  obtain ⟨-, m, ⟨es, hv, -⟩, -⟩ := h
  exact hv.root_ne

theorem Agrees.not_rootless (h : Agrees tab L s) : ¬ Rootless s := fun ⟨i, hi⟩ => (h.index i).root_ne hi

variable {P : Rows → List WriteRecord → Prop}

theorem DmlPlan.after_safe (hP : KeptBy tab P (Other n)) (h : Agrees tab L s) (hL : P L s.writeSet)
    (hlegal : st.Legal s) (hsafe : st.Safe s) :
    (∃ L' s', st.after tab s = (true, s') ∧ Agrees tab L' s' ∧ P L' s'.writeSet) ∨
    (∃ L' W r old new s', st.after tab s = (false, s') ∧ s'.writeSet = .updateTuple r old :: W ∧ P L' W ∧
      Other n L' r ∧ Half tab L' r old new s') := by
  cases st with
  | insert values =>
      simp only [DmlPlan.Legal, h.rows] at hlegal
      obtain ⟨L', s', hA, hP', hrun⟩ := insertNext_spec hP values h hL hlegal.1 hlegal.2
      refine .inl ⟨L', s', ?_, hA, hP'⟩
      rcases hrun with hrun | hrun | hrun <;> rw [DmlPlan.after, DmlPlan.exec, hrun]
  | update clauses rids =>
      simp only [DmlPlan.Legal, DmlPlan.Safe, h.rows] at hlegal hsafe
      have hC : ∀ {L L' : Rows} {r : Rid}, (∀ q, L q = none ↔ L' q = none) → Other n L r → Other n L' r := by
        intro L L' r hsame hother hn
        obtain ⟨q, hqr, hq⟩ := hother hn
        exact ⟨q, hqr, fun hc => hq ((hsame q).2 hc)⟩
      rcases updateNext_spec hP hC rids h hL hlegal.2 hsafe with
        ⟨L', s', hA, hP', hrun⟩ | ⟨L', W, r, old, s', hrun, hws, hPW, hin, hsame, hhalf⟩
      · refine .inl ⟨L', s', ?_, hA, hP'⟩
        rw [DmlPlan.after, DmlPlan.exec, hrun]
      · refine .inr ⟨L', W, r, old, _, s', ?_, hws, hPW, hC hsame (hsafe r hin), hhalf⟩
        rw [DmlPlan.after, DmlPlan.exec, hrun]
  | delete rids =>
      simp only [DmlPlan.Legal, DmlPlan.Safe, h.rows] at hlegal hsafe
      by_cases hnil : rids = []
      · subst hnil
        exact .inl ⟨L, s, rfl, h, hL⟩
      · obtain ⟨L', s', hA, hP', hrun⟩ :=
          deleteNext_spec hP rids h hL hlegal.1 hlegal.2 fun hn => hsafe hn hnil
        refine .inl ⟨L', s', ?_, hA, hP'⟩
        rw [DmlPlan.after, DmlPlan.exec, hrun]

end Forward

section Dead

omit [∀ i, LinearOrder (K i)] [∀ i, LawfulIxKey (K i)] in
theorem insertEntry_emptied {i : Fin n} (h : Emptied (s.ihs i)) (key : K i) (rid : Rid) :
    ∃ e, (insertEntry i key rid).run s = .error (.index e) s := by
  obtain ⟨e, he⟩ := h.insertEntry key rid
  have hget : (get : Exec K (TableState n K)).run s = .ok s s := rfl
  refine ⟨e, ?_⟩
  rw [insertEntry, bind_ok hget]
  simp only [he]
  rfl

omit [∀ i, LinearOrder (K i)] [∀ i, LawfulIxKey (K i)] in
theorem deleteEntry_emptied {i : Fin n} (h : Emptied (s.ihs i)) (key : K i) (rid : Option Rid) :
    ∃ e, (deleteEntry i key rid).run s = .error (.index e) s := by
  obtain ⟨e, he⟩ := h.deleteEntry key rid
  have hget : (get : Exec K (TableState n K)).run s = .ok s s := rfl
  refine ⟨e, ?_⟩
  rw [deleteEntry, bind_ok hget]
  simp only [he]
  rfl

omit [∀ i, IxKey (K i)] [∀ i, LinearOrder (K i)] [∀ i, LawfulIxKey (K i)] in
theorem finRange_cons (hn : n ≠ 0) : ∃ i is, List.finRange n = i :: is := by
  refine List.exists_cons_of_ne_nil fun hc => hn ?_
  rw [← List.length_finRange (n := n), hc]
  rfl

/-- There are writes to undo, and no index to undo them in. -/
structure Dead (s : TableState n K) : Prop where
  indexed : n ≠ 0
  emptied : ∀ i, Emptied (s.ihs i)
  written : s.writeSet ≠ []

variable (tab) in
omit [∀ i, LinearOrder (K i)] [∀ i, LawfulIxKey (K i)] in
/-- An insert of a row into an emptied table throws, and the row stays. -/
theorem insertNext_emptied (hn : n ≠ 0) (hem : ∀ i, Emptied (s.ihs i)) (record : Row)
    (values : List (Option Row × Rid)) :
    ∃ e, (insertNext tab ((some record, r) :: values)).run s =
      .error (.index e) ⟨Function.update s.bitmap r true,
      Function.update s.slots r record, s.ihs, .insertTuple r :: s.writeSet⟩ := by
  obtain ⟨i, is, hfin⟩ := finRange_cons hn
  have hins : (insertRecord r record : Exec K Unit).run s = .ok () { s with
    bitmap := Function.update s.bitmap r true, slots := Function.update s.slots r record } := rfl
  have happ : (appendWriteRecord (.insertTuple r) : Exec K Unit).run { s with
      bitmap := Function.update s.bitmap r true, slots := Function.update s.slots r record } =
    .ok () ⟨Function.update s.bitmap r true, Function.update s.slots r record, s.ihs,
      .insertTuple r :: s.writeSet⟩ := rfl
  obtain ⟨e, he⟩ :=
    insertEntry_emptied (s := ⟨Function.update s.bitmap r true, Function.update s.slots r record, s.ihs,
    .insertTuple r :: s.writeSet⟩) (hem i) (tab.key i record) r
  refine ⟨e, ?_⟩
  have hkeys : (insertKeys tab r record [] (List.finRange n)).run ⟨Function.update s.bitmap r true,
      Function.update s.slots r record, s.ihs,
      .insertTuple r :: s.writeSet⟩ = .error (.index e) ⟨Function.update s.bitmap r true,
      Function.update s.slots r record, s.ihs, .insertTuple r :: s.writeSet⟩ := by
    rw [hfin, insertKeys]
    exact bind_error he
  rw [insertNext, bind_ok hins, bind_ok happ, bind_error hkeys]

variable (tab) in
omit [∀ i, LinearOrder (K i)] [∀ i, LawfulIxKey (K i)] in
theorem deleteNext_emptied (hn : n ≠ 0) (hem : ∀ i, Emptied (s.ihs i)) (rids : List Rid) :
    ∃ e s', (deleteNext tab (r :: rids)).run s = .error (.index e) s' ∧ s'.ihs = s.ihs ∧
      s'.writeSet ≠ [] := by
  obtain ⟨i, is, hfin⟩ := finRange_cons hn
  have hget : (getRecord r : Exec K Row).run s = .ok (s.slots r) s := rfl
  have hdel : (deleteRecord r : Exec K Unit).run s =
    .ok () { s with bitmap := Function.update s.bitmap r false } := rfl
  have happ : (appendWriteRecord (.deleteTuple r (s.slots r)) : Exec K Unit).run
      { s with bitmap := Function.update s.bitmap r false } =
    .ok () ⟨Function.update s.bitmap r false, s.slots, s.ihs, .deleteTuple r (s.slots r) :: s.writeSet⟩ := rfl
  obtain ⟨e, he⟩ := deleteEntry_emptied (s := ⟨Function.update s.bitmap r false, s.slots, s.ihs,
    .deleteTuple r (s.slots r) :: s.writeSet⟩) (hem i) (tab.key i (s.slots r)) none
  refine ⟨e, ⟨Function.update s.bitmap r false, s.slots, s.ihs, .deleteTuple r (s.slots r) :: s.writeSet⟩,
    ?_, rfl, List.cons_ne_nil _ _⟩
  have hkeys : (deleteKeys tab (s.slots r) (List.finRange n)).run
    ⟨Function.update s.bitmap r false, s.slots, s.ihs,
      .deleteTuple r (s.slots r) :: s.writeSet⟩ = .error (.index e) ⟨Function.update s.bitmap r false,
      s.slots, s.ihs,
      .deleteTuple r (s.slots r) :: s.writeSet⟩ := by
    rw [hfin, deleteKeys]
    exact bind_error he
  rw [deleteNext, bind_ok hget, bind_ok hdel, bind_ok happ, bind_error hkeys]

variable (tab) in
omit [∀ i, LinearOrder (K i)] [∀ i, LawfulIxKey (K i)] in
theorem updateNext_emptied (clauses : List SetClause) (rids : List Rid) (hem : ∀ i, Emptied (s.ihs i)) :
    ∃ s', s'.ihs = s.ihs ∧ (s.writeSet ≠ [] → s'.writeSet ≠ []) ∧
      ((updateNext tab clauses rids).run s = .ok () s' ∨
      ∃ e, (updateNext tab clauses rids).run s = .error (.index e) s') := by
  induction rids generalizing s with
  | nil => exact ⟨s, rfl, id, .inl rfl⟩
  | cons r rids iht =>
      have hget : (getRecord r : Exec K Row).run s = .ok (s.slots r) s := rfl
      have hupd : (updateRecord r (setRecord clauses (s.slots r)) : Exec K Unit).run s =
        .ok () { s with slots := Function.update s.slots r (setRecord clauses (s.slots r)) } := rfl
      have happ : (appendWriteRecord (.updateTuple r (s.slots r)) : Exec K Unit).run
          { s with slots := Function.update s.slots r (setRecord clauses (s.slots r)) } = .ok () ⟨s.bitmap,
        Function.update s.slots r (setRecord clauses (s.slots r)), s.ihs,
        .updateTuple r (s.slots r) :: s.writeSet⟩ := rfl
      cases hix : tab.updateIndexes clauses with
      | nil =>
          obtain ⟨s', hih, hws, hrun⟩ :=
            iht (s := ⟨s.bitmap, Function.update s.slots r (setRecord clauses (s.slots r)),
            s.ihs, .updateTuple r (s.slots r) :: s.writeSet⟩) hem
          refine ⟨s', hih, fun _ => hws (List.cons_ne_nil _ _), ?_⟩
          have hstep : (updateNext tab clauses (r :: rids)).run s =
            (updateNext tab clauses rids).run ⟨s.bitmap,
              Function.update s.slots r (setRecord clauses (s.slots r)), s.ihs,
              .updateTuple r (s.slots r) :: s.writeSet⟩ := by
            rw [updateNext, bind_ok hget, bind_ok hupd, bind_ok happ, hix]
            rfl
          rw [hstep]
          exact hrun
      | cons i is =>
          obtain ⟨e, he⟩ :=
            insertEntry_emptied (s := ⟨s.bitmap,
              Function.update s.slots r (setRecord clauses (s.slots r)),
            s.ihs, .updateTuple r (s.slots r) :: s.writeSet⟩) (hem i) (tab.key i
              (setRecord clauses (s.slots r))) r
          refine ⟨⟨s.bitmap, Function.update s.slots r (setRecord clauses (s.slots r)), s.ihs,
            .updateTuple r (s.slots r) :: s.writeSet⟩, rfl, fun _ => List.cons_ne_nil _ _, .inr ⟨e, ?_⟩⟩
          have hkeys : (updateKeys tab r (s.slots r) (setRecord clauses (s.slots r))
            (tab.updateIndexes clauses)).run
              ⟨s.bitmap, Function.update s.slots r (setRecord clauses (s.slots r)), s.ihs,
                .updateTuple r (s.slots r) :: s.writeSet⟩ = .error (.index e) ⟨s.bitmap,
              Function.update s.slots r (setRecord clauses (s.slots r)), s.ihs,
              .updateTuple r (s.slots r) :: s.writeSet⟩ := by
            rw [hix, updateKeys]
            exact bind_error he
          rw [updateNext, bind_ok hget, bind_ok hupd, bind_ok happ, bind_error hkeys]

omit [∀ i, LinearOrder (K i)] [∀ i, LawfulIxKey (K i)] in
variable (tab) in
theorem Dead.after (h : Dead s) (st : DmlPlan) : ∃ s', st.after tab s = (true, s') ∧ Dead s' := by
  obtain ⟨hn, hem, hws⟩ := h
  cases st with
  | insert values =>
      cases values with
      | nil => exact ⟨s, rfl, hn, hem, hws⟩
      | cons v values =>
          obtain ⟨record, rid⟩ := v
          cases record with
          | none => exact ⟨s, rfl, hn, hem, hws⟩
          | some record =>
              obtain ⟨e, hrun⟩ := insertNext_emptied tab (r := rid) hn hem record values
              refine ⟨⟨Function.update s.bitmap rid true, Function.update s.slots rid record, s.ihs,
                .insertTuple rid :: s.writeSet⟩, ?_, hn, hem, List.cons_ne_nil _ _⟩
              rw [DmlPlan.after, DmlPlan.exec, hrun]
  | update clauses rids =>
      obtain ⟨s', hih, hws', hrun | ⟨e, hrun⟩⟩ := updateNext_emptied tab clauses rids hem
      · exact ⟨s', by rw [DmlPlan.after, DmlPlan.exec, hrun], hn, by rw [hih]; exact hem, hws' hws⟩
      · exact ⟨s', by rw [DmlPlan.after, DmlPlan.exec, hrun], hn, by rw [hih]; exact hem, hws' hws⟩
  | delete rids =>
      cases rids with
      | nil => exact ⟨s, rfl, hn, hem, hws⟩
      | cons rid rids =>
          obtain ⟨e, s', hrun, hih, hws'⟩ := deleteNext_emptied tab (r := rid) hn hem rids
          exact ⟨s', by rw [DmlPlan.after, DmlPlan.exec, hrun], hn, by rw [hih]; exact hem, hws'⟩

variable (tab) in
omit [∀ i, LinearOrder (K i)] [∀ i, LawfulIxKey (K i)] in
theorem undoKey_emptied {i : Fin n} (h : Emptied (s.ihs i)) (w : WriteRecord) :
    ∃ e s', (undoKey tab w i).run s = .error e s' := by
  have hget : ∀ r, (getRecord r : Exec K Row).run s = .ok (s.slots r) s := fun _ => rfl
  cases w with
  | insertTuple r =>
      obtain ⟨e, he⟩ := deleteEntry_emptied h (tab.key i (s.slots r)) (some r)
      exact ⟨_, _, by rw [undoKey, bind_ok (hget r), he]⟩
  | deleteTuple r old =>
      obtain ⟨e, he⟩ := insertEntry_emptied h (tab.key i old) r
      exact ⟨_, _, by rw [undoKey, bind_error he]⟩
  | updateTuple r old =>
      obtain ⟨e, he⟩ := deleteEntry_emptied h (tab.key i (s.slots r)) (some r)
      exact ⟨_, _, by rw [undoKey, bind_ok (hget r), bind_error he]⟩

omit [∀ i, LinearOrder (K i)] [∀ i, LawfulIxKey (K i)] in
theorem undoWrites_error {w : WriteRecord} {e : ExecError} {s' : TableState n K}
    (h : (undoWrite tab w).run { s with writeSet := W } = .error e s') :
    (undoWrites tab (w :: W)).run s = .error e s' := by
  have hpop : (modify fun s => { s with writeSet := W } : Exec K Unit).run s =
    .ok () { s with writeSet := W } := rfl
  rw [undoWrites, bind_ok hpop, bind_error h]

omit [∀ i, LinearOrder (K i)] [∀ i, LawfulIxKey (K i)] in
theorem Dead.abort (h : Dead s) : ∃ e s', (Exec.abort tab).run s = .error e s' := by
  obtain ⟨hn, hem, hws⟩ := h
  obtain ⟨w, ws, hcons⟩ := List.exists_cons_of_ne_nil hws
  obtain ⟨i, is, hfin⟩ := finRange_cons hn
  have hkeys : ∀ s' : TableState n K, s'.ihs = s.ihs →
      ∃ e s'', (undoKeys tab w (List.finRange n)).run s' = .error e s'' := by
    intro s' hih
    obtain ⟨e, s'', he⟩ := undoKey_emptied tab (s := s') (i := i) (by rw [hih]; exact hem i) w
    exact ⟨e, s'', by rw [hfin, undoKeys]; exact bind_error he⟩
  have habort : (Exec.abort tab).run s = (undoWrites tab (w :: ws)).run s := by
    rw [← hcons]
    rfl
  rw [habort]
  cases w with
  | insertTuple r =>
      obtain ⟨e, s', he⟩ := hkeys { s with writeSet := ws } rfl
      exact ⟨e, s', undoWrites_error (by rw [undoWrite, bind_error he])⟩
  | deleteTuple r old =>
      obtain ⟨e, s', he⟩ :=
        hkeys ⟨Function.update s.bitmap r true, Function.update s.slots r old, s.ihs, ws⟩ rfl
      refine ⟨e, s', undoWrites_error ?_⟩
      have hins : (insertRecord r old : Exec K Unit).run { s with writeSet := ws } =
        .ok () ⟨Function.update s.bitmap r true, Function.update s.slots r old, s.ihs, ws⟩ := rfl
      rw [undoWrite, bind_ok hins, bind_error he]
  | updateTuple r old =>
      obtain ⟨e, s', he⟩ := hkeys { s with writeSet := ws } rfl
      exact ⟨e, s', undoWrites_error (by rw [undoWrite, bind_error he])⟩

end Dead

section Only

variable (tab) in
omit [∀ i, LinearOrder (K i)] [∀ i, LawfulIxKey (K i)] in
theorem undoKeys_throws {w : WriteRecord} {i : Fin n} (is : List (Fin n)) (hnd : is.Nodup) (hi : i ∈ is)
    (hround : ∀ j ∈ is, ∀ s' : TableState n K, s'.slots = s.slots → s'.ihs j = s.ihs j →
      (j ≠ i ∧ ∃ ih, (undoKey tab w j).run s' = .ok () { s' with ihs := Function.update s'.ihs j ih }) ∨
      ∃ e s'', (undoKey tab w j).run s' = .error e s'') :
      ∃ e s', (undoKeys tab w is).run s = .error e s' := by
  induction is generalizing s with
  | nil => cases hi
  | cons j is iht =>
      obtain ⟨hnot, hnd⟩ := List.nodup_cons.1 hnd
      rcases hround j List.mem_cons_self s rfl rfl with ⟨hji, ih, hrun⟩ | ⟨e, s', hrun⟩
      · have hi' : i ∈ is := (List.mem_cons.1 hi).resolve_left fun hc => hji hc.symm
        obtain ⟨e, s', he⟩ := iht (s := { s with ihs := Function.update s.ihs j ih }) hnd hi' (by
          intro l hl s' hslots hihs
          refine hround l (List.mem_cons_of_mem _ hl) s' hslots ?_
          have hlj : l ≠ j := by
            rintro rfl
            exact hnot hl
          rw [hihs]
          exact Function.update_of_ne hlj _ _)
        exact ⟨e, s', by rw [undoKeys, bind_ok hrun]; exact he⟩
      · exact ⟨e, s', by rw [undoKeys]; exact bind_error hrun⟩

omit [∀ i, LinearOrder (K i)] [∀ i, LawfulIxKey (K i)] in
theorem undoKey_update_last {i : Fin n} {ih : IxIndexHandle (K i)} {b : Bool}
    (h : (s.ihs i).deleteEntry (tab.key i (s.slots r)) (some r) = .ok (b, ih)) (hem : Emptied ih) :
    ∃ e s', (undoKey tab (.updateTuple r old) i).run s = .error e s' := by
  have hget : (getRecord r : Exec K Row).run s = .ok (s.slots r) s := rfl
  obtain ⟨e, he⟩ := insertEntry_emptied (s := { s with ihs := Function.update s.ihs i ih }) (i := i)
    (by simp only [Function.update_self]; exact hem) (tab.key i old) r
  exact ⟨.index e, _, by rw [undoKey, bind_ok hget, bind_ok (deleteEntry_ok h)]; exact bind_error he⟩

/-- Undoing an update of the only row: its entry is taken out first, and an index that held it
under the new key is then without a root. -/
theorem undoWrite_update_only (h : Half tab L r old new s) (honly : ∀ q, q ≠ r → L q = none) {i : Fin n}
    (hi : IndexOf (s.ihs i) (tab.key i) (Function.update L r (some new)) ∨ tab.key i new = tab.key i old) :
    ∃ e s', (undoWrite tab (.updateTuple r old)).run s = .error e s' := by
  have honly' : ∀ q, q ≠ r → Function.update L r (some new) q = none := by
    intro q hqr
    rw [Function.update_of_ne hqr]
    exact honly q hqr
  have hslot : s.slots r = new := slot_eq h.rows (Function.update_self ..)
  obtain ⟨e, s', he⟩ := undoKeys_throws tab (s := s) (w := .updateTuple r old) (i := i) (List.finRange n)
    (List.nodup_finRange n) (List.mem_finRange i) (by
      intro j _ s' hslots hihs
      have hkey : tab.key j (s'.slots r) = tab.key j new := by rw [hslots, hslot]
      by_cases hj : IndexOf (s.ihs j) (tab.key j) (Function.update L r (some new))
      · obtain ⟨ih, hdel, hem⟩ := hj.delete_last (Function.update_self ..) honly' (.inr rfl)
        exact .inr (undoKey_update_last (by rw [hihs, hkey]; exact hdel) hem)
      · have hL := (h.index j).resolve_right hj
        by_cases hsame : tab.key j new = tab.key j old
        · obtain ⟨ih, hdel, hem⟩ := hL.delete_last h.before honly (.inr rfl)
          exact .inr (undoKey_update_last (by rw [hihs, hkey, hsame]; exact hdel) hem)
        · have hji : j ≠ i := by
            rintro rfl
            exact hi.elim hj hsame
          obtain ⟨ih1, h1, hi1⟩ :=
            hL.delete_other (r := r) (k := tab.key j new) ⟨r, by rw [h.before]; simp⟩ (by
            intro row hrow
            rw [h.before] at hrow
            cases hrow
            exact fun hc => hsame hc.symm)
          obtain ⟨p, ih2, h2, -⟩ := hi1.insert_dup h.before rfl r
          exact .inl ⟨hji, ih2, undoKey_update (by rw [hihs, hkey]; exact h1) h2⟩)
  exact ⟨e, s', bind_error he⟩

/-- The rows are those left by an update of the only row of an indexed table, and of later
writes that can be undone. -/
def Doomed (tab : TabMeta n K) (L : Rows) (W : List WriteRecord) : Prop :=
  ∃ W₁ W₀ L₁ r old new, W = W₁ ++ .updateTuple r old :: W₀ ∧
    Rolls tab (Function.update L₁ r (some new)) W₁ L ∧
    n ≠ 0 ∧ L₁ r = some old ∧ (∀ q, q ≠ r → L₁ q = none) ∧ Uniq tab L₁

omit [∀ i, IxKey (K i)] [∀ i, LinearOrder (K i)] [∀ i, LawfulIxKey (K i)] in
theorem keptBy_doomed : KeptBy tab (Doomed tab) (Other n) where
  insert := by
    rintro L W r record ⟨W₁, W₀, L₁, q, old, new, rfl, hR, hrest⟩ hr
    exact ⟨_ :: W₁, W₀, L₁, q, old, new, rfl, hR.insert hr, hrest⟩
  failed := by
    rintro L W r ⟨W₁, W₀, L₁, q, old, new, rfl, hR, hrest⟩ hr hlive
    exact ⟨_ :: W₁, W₀, L₁, q, old, new, rfl, hR.failed hr hlive, hrest⟩
  delete := by
    rintro L W r record ⟨W₁, W₀, L₁, q, old, new, rfl, hR, hrest⟩ hr hother huniq
    exact ⟨_ :: W₁, W₀, L₁, q, old, new, rfl, hR.delete hr hother huniq, hrest⟩
  update := by
    rintro L W r old' new' ⟨W₁, W₀, L₁, q, old, new, rfl, hR, hrest⟩ hr hother huniq
    exact ⟨_ :: W₁, W₀, L₁, q, old, new, rfl, hR.update hr hother huniq, hrest⟩

theorem Doomed.undoWrites (h : Doomed tab L W) (hA : Agrees tab L s) :
    ∃ e s', (undoWrites tab W).run s = .error e s' := by
  obtain ⟨W₁, W₀, L₁, r, old, new, rfl, hR, hn, hr, honly, huniq⟩ := h
  obtain ⟨s1, hC, hrun⟩ := undoWrites_spec hR hA (.updateTuple r old :: W₀)
  have hA1 := hC.agrees ⟨r, by rw [Function.update_self]; simp⟩
  obtain ⟨i, -, -⟩ := finRange_cons hn
  have hhalf : Half tab L₁ r old new { s1 with writeSet := W₀ } := hA1.pop.half hr huniq
  obtain ⟨e, s', he⟩ := undoWrite_update_only hhalf honly (.inl (hA1.index i))
  exact ⟨e, s', by rw [hrun]; exact undoWrites_error he⟩

end Only

section Unsafe

theorem deleteNext_all (rids : List Rid) (hn : n ≠ 0) (h : Agrees tab L s) (hne : rids ≠ [])
    (hnd : rids.Nodup) (hlive : ∀ r ∈ rids, L r ≠ none) (hall : ∀ q, q ∉ rids → L q = none) :
    ∃ s', (deleteNext tab rids).run s = .ok () s' ∧ (∀ q, s'.rows q = none) ∧ Dead s' := by
  induction rids generalizing s L with
  | nil => exact absurd rfl hne
  | cons rid rids iht =>
      obtain ⟨hnot, hnd⟩ := List.nodup_cons.1 hnd
      obtain ⟨record, hr⟩ := Option.ne_none_iff_exists'.1 (hlive rid List.mem_cons_self)
      by_cases hnil : rids = []
      · subst hnil
        have honly : ∀ q, q ≠ rid → L q = none := fun q hq => hall q (by simpa using hq)
        obtain ⟨ihs, hrun, hem⟩ := deleteKeys_last (s := ⟨Function.update s.bitmap rid false, s.slots, s.ihs,
          .deleteTuple rid record :: s.writeSet⟩) (List.finRange n) (List.nodup_finRange n) (fun i _ =>
            h.index i) hr honly
        refine ⟨⟨Function.update s.bitmap rid false, s.slots, ihs, .deleteTuple rid record :: s.writeSet⟩,
          ?_, ?_, hn,
          fun i => hem i (List.mem_finRange i), List.cons_ne_nil _ _⟩
        · rw [deleteNext_cons h.rows hr hrun]
          rfl
        · intro q
          rw [rows_delete h.rows]
          by_cases hq : q = rid
          · rw [hq, Function.update_self]
          · rw [Function.update_of_ne hq]
            exact honly q hq
      · obtain ⟨q, hq⟩ := List.exists_mem_of_ne_nil _ hnil
        have hqr : ∀ q ∈ rids, q ≠ rid := by
          rintro q hq rfl
          exact hnot hq
        obtain ⟨ihs, hrun, hih, -⟩ :=
          deleteKeys_spec (s := ⟨Function.update s.bitmap rid false, s.slots, s.ihs,
          .deleteTuple rid record :: s.writeSet⟩) (List.finRange n) (List.nodup_finRange n)
            (fun i _ => h.index i) hr
          fun _ => ⟨q, hqr q hq, hlive q (List.mem_cons_of_mem _ hq)⟩
        have hA : Agrees tab (Function.update L rid none)
            ⟨Function.update s.bitmap rid false, s.slots, ihs, .deleteTuple rid record :: s.writeSet⟩ :=
          ⟨rows_delete h.rows, fun i => hih i (List.mem_finRange i)⟩
        rw [deleteNext_cons h.rows hr hrun]
        refine iht hA hnil hnd ?_ ?_
        · intro q hq
          rw [Function.update_of_ne (hqr q hq)]
          exact hlive q (List.mem_cons_of_mem _ hq)
        · intro q hq
          by_cases hqr : q = rid
          · rw [hqr, Function.update_self]
          · rw [Function.update_of_ne hqr]
            exact hall q (by simp [hq, hqr])

omit [∀ i, IxKey (K i)] [∀ i, LawfulIxKey (K i)] in
/-- An update that is not safe is an update of the only row. -/
theorem update_only {clauses : List SetClause} {rids : List Rid} (h : Agrees tab L s)
    (hlegal : DmlPlan.Legal (.update clauses rids) s) (hsafe : ¬ DmlPlan.Safe (.update clauses rids) s) :
    ∃ r, rids = [r] ∧ ∃ old, L r = some old ∧ n ≠ 0 ∧ ∀ q, q ≠ r → L q = none := by
  simp only [DmlPlan.Legal, DmlPlan.Safe, h.rows, not_forall] at hlegal hsafe
  obtain ⟨r, hin, hother⟩ := hsafe
  have honly : ∀ q, q ≠ r → L q = none := by
    intro q hqr
    by_contra hq
    exact hother fun _ => ⟨q, hqr, hq⟩
  have hsub : rids ⊆ [r] := by
    intro q hq
    by_contra hc
    exact hlegal.2 q hq (honly q (by simpa using hc))
  have hle := (hlegal.1.subperm hsub).length_le
  obtain ⟨old, hr⟩ := Option.ne_none_iff_exists'.1 (hlegal.2 r hin)
  refine ⟨r, ?_, old, hr, fun hn => hother fun hc => absurd hn hc, honly⟩
  cases rids with
  | nil => cases hin
  | cons q rids =>
      have hnil : rids = [] := List.length_eq_zero_iff.1 (by simpa using hle)
      have hq := hsub List.mem_cons_self
      rw [hnil, List.mem_singleton.1 hq]

/-- A statement that is not safe: the indexes are gone, or the transaction cannot be undone. -/
theorem DmlPlan.after_broken (h : Agrees tab L s) (hlegal : st.Legal s) (hsafe : ¬ st.Safe s) :
    (∃ s', st.after tab s = (true, s') ∧ (Dead s' ∨ ∃ L', Agrees tab L' s' ∧ Doomed tab L' s'.writeSet)) ∨
    (∃ s', st.after tab s = (false, s') ∧ ∃ e s'', (Exec.abort tab).run s' = .error e s'') := by
  cases st with
  | insert values => exact absurd (fun hroot => absurd hroot h.not_rootless) hsafe
  | update clauses rids =>
      obtain ⟨r, rfl, old, hr, hn, honly⟩ := update_only h hlegal hsafe
      obtain ⟨s', hws, ⟨hA, hrun, -⟩ | ⟨hhalf, hrun, i, hi, hwhy⟩⟩ := updateRow_spec clauses h hr
      · refine .inl ⟨s', ?_,
          .inr ⟨_, hA, [], s.writeSet, L, r, old, _, by rw [hws]; rfl, .start, hn, hr, honly, h.uniq⟩⟩
        rw [DmlPlan.after, DmlPlan.exec, hrun]
        rfl
      · refine .inr ⟨s', by rw [DmlPlan.after, DmlPlan.exec, hrun], ?_⟩
        have hpop : Half tab L r old (setRecord clauses old) { s' with writeSet := s.writeSet } :=
          ⟨hhalf.rows, hhalf.before, hhalf.uniq, hhalf.index⟩
        obtain ⟨e, s'', he⟩ := undoWrite_update_only (i := i) hpop honly (by
          rcases hwhy with ⟨-, hidx⟩ | ⟨-, q, row, hq, hkey⟩
          · exact .inl hidx
          · refine .inr ?_
            have hqr : q = r := by
              by_contra hc
              rw [honly q hc] at hq
              cases hq
            rw [hqr, hr] at hq
            cases hq
            exact hkey.symm)
        refine ⟨e, s'', ?_⟩
        have habort : (Exec.abort tab).run s' =
            (undoWrites tab (.updateTuple r old :: s.writeSet)).run s' := by
          rw [← hws]
          rfl
        rw [habort]
        exact undoWrites_error he
  | delete rids =>
      simp only [DmlPlan.Legal, DmlPlan.Safe, h.rows, Classical.not_imp, not_exists, not_and,
        not_not] at hlegal hsafe
      obtain ⟨hn, hne, hall⟩ := hsafe
      obtain ⟨s', hrun, -, hdead⟩ := deleteNext_all rids hn h hne hlegal.1 hlegal.2 hall
      exact .inl ⟨s', by rw [DmlPlan.after, DmlPlan.exec, hrun], .inl hdead⟩

end Unsafe

section Run

omit [∀ i, LinearOrder (K i)] [∀ i, LawfulIxKey (K i)] in
theorem abort_eq (h : s.writeSet = W) : (Exec.abort tab).run s = (undoWrites tab W).run s := by
  subst h
  rfl

omit [∀ i, LinearOrder (K i)] [∀ i, LawfulIxKey (K i)] in
theorem runStatements_on {s' : TableState n K} (h : st.after tab s = (true, s')) :
    runStatements tab (st :: sts) s = runStatements tab sts s' := by
  rw [runStatements, h]
  rfl

omit [∀ i, LinearOrder (K i)] [∀ i, LawfulIxKey (K i)] in
theorem runStatements_off {s' : TableState n K} (h : st.after tab s = (false, s')) :
    runStatements tab (st :: sts) s = s' := by
  rw [runStatements, h]
  rfl

omit [∀ i, LinearOrder (K i)] [∀ i, LawfulIxKey (K i)] in
theorem AllAt.tail {P : DmlPlan → TableState n K → Prop} {s' : TableState n K} (h : AllAt tab P (st :: sts) s)
    (hst : st.after tab s = (true, s')) : AllAt tab P sts s' := by
  have := h.2
  rw [hst] at this
  exact this rfl

/-- A transaction that cannot be undone stays so. -/
theorem doomed_run (sts : List DmlPlan) (hlegal : AllAt tab DmlPlan.Legal sts s)
    (h : Dead s ∨ ∃ L, Agrees tab L s ∧ Doomed tab L s.writeSet) :
    ∃ e s', (Exec.abort tab).run (runStatements tab sts s) = .error e s' := by
  induction sts generalizing s with
  | nil =>
      rcases h with h | ⟨L, hA, hD⟩
      · exact h.abort
      · exact hD.undoWrites hA
  | cons st sts iht =>
      rcases h with h | ⟨L, hA, hD⟩
      · obtain ⟨s', hst, hdead⟩ := h.after tab st
        rw [runStatements_on hst]
        exact iht (hlegal.tail hst) (.inl hdead)
      · by_cases hsafe : st.Safe s
        · rcases st.after_safe keptBy_doomed hA hD hlegal.1 hsafe with
            ⟨L', s', hst, hA', hD'⟩ | ⟨L', W, r, old, new, s', hst, hws, hD', hother, hhalf⟩
          · rw [runStatements_on hst]
            exact iht (hlegal.tail hst) (.inr ⟨L', hA', hD'⟩)
          · obtain ⟨s1, hA1, hrun⟩ := undoWrites_half (W := W) hhalf hother
            rw [runStatements_off hst, abort_eq hws, hrun]
            exact hD'.undoWrites hA1
        · rcases st.after_broken hA hlegal.1 hsafe with ⟨s', hst, hbad⟩ | ⟨s', hst, herr⟩
          · rw [runStatements_on hst]
            exact iht (hlegal.tail hst) hbad
          · rw [runStatements_off hst]
            exact herr

theorem broken_run (sts : List DmlPlan) (hlegal : AllAt tab DmlPlan.Legal sts s) (hA : Agrees tab L s)
    (hnot : ¬ AllAt tab DmlPlan.Safe sts s) :
    ∃ e s', (Exec.abort tab).run (runStatements tab sts s) = .error e s' := by
  induction sts generalizing s L with
  | nil => exact absurd trivial hnot
  | cons st sts iht =>
      by_cases hsafe : st.Safe s
      · have hkept : KeptBy tab (fun _ _ => True) (Other n) :=
          ⟨fun _ _ => trivial, fun _ _ _ => trivial, fun _ _ _ _ => trivial, fun _ _ _ _ => trivial⟩
        rcases st.after_safe hkept hA trivial hlegal.1 hsafe
          with ⟨L', s', hst, hA', -⟩ | ⟨_, _, _, _, _, s', hst, -⟩
        · rw [runStatements_on hst]
          refine iht (hlegal.tail hst) hA' fun hc => hnot ⟨hsafe, fun _ => ?_⟩
          rw [hst]
          exact hc
        · refine absurd ⟨hsafe, fun hc => ?_⟩ hnot
          rw [hst] at hc
          cases hc
      · rcases st.after_broken hA hlegal.1 hsafe with ⟨s', hst, hbad⟩ | ⟨s', hst, herr⟩
        · rw [runStatements_on hst]
          exact doomed_run sts (hlegal.tail hst) hbad
        · rw [runStatements_off hst]
          exact herr

theorem safe_run (sts : List DmlPlan) (hlegal : AllAt tab DmlPlan.Legal sts s)
    (hsafe : AllAt tab DmlPlan.Safe sts s) (hA : Agrees tab L s) (hR : Rolls tab L₀ s.writeSet L) :
    ∃ s', (Exec.abort tab).run (runStatements tab sts s) = .ok () s' ∧ Consistent tab L₀ s' := by
  induction sts generalizing s L with
  | nil =>
      obtain ⟨s', hC, hrun⟩ := undoWrites_spec hR hA []
      refine ⟨s', ?_, hC⟩
      rw [List.append_nil] at hrun
      rw [runStatements, abort_eq rfl, hrun]
      rfl
  | cons st sts iht =>
      rcases st.after_safe keptBy_rolls hA hR hlegal.1 hsafe.1 with
        ⟨L', s', hst, hA', hR'⟩ | ⟨L', W, r, old, new, s', hst, hws, hR', hother, hhalf⟩
      · rw [runStatements_on hst]
        exact iht (hlegal.tail hst) (hsafe.tail hst) hA' hR'
      · obtain ⟨s1, hA1, hrun1⟩ := undoWrites_half (W := W) hhalf hother
        obtain ⟨s2, hC, hrun2⟩ := undoWrites_spec hR' hA1 []
        refine ⟨s2, ?_, hC⟩
        rw [List.append_nil] at hrun2
        rw [runStatements_off hst, abort_eq hws, hrun1, hrun2]
        rfl

variable (tab) in
omit [∀ i, LinearOrder (K i)] [∀ i, LawfulIxKey (K i)] in
/-- On a table that has been emptied, a statement that does nothing is safe, and no other is. -/
theorem after_emptied (hn : n ≠ 0) (hem : ∀ i, Emptied (s.ihs i)) (hnone : ∀ q, s.rows q = none)
    (hlegal : st.Legal s) :
    (st.Safe s ∧ st.after tab s = (true, s)) ∨
    (¬ st.Safe s ∧ ∃ s', st.after tab s = (true, s') ∧ Dead s') := by
  obtain ⟨i, -, -⟩ := finRange_cons hn
  have hroot : Rootless s := ⟨i, (hem i).root⟩
  have hrids : ∀ {rids : List Rid}, (∀ r ∈ rids, s.rows r ≠ none) → rids = [] :=
    fun h => List.eq_nil_iff_forall_not_mem.2 fun r hr => h r hr (hnone r)
  cases st with
  | insert values =>
      cases values with
      | nil => exact .inl ⟨nofun, rfl⟩
      | cons v values =>
          obtain ⟨record, rid⟩ := v
          cases record with
          | none =>
              refine .inl ⟨fun _ v hv => ?_, rfl⟩
              cases hv
              rfl
          | some record =>
              obtain ⟨e, hrun⟩ := insertNext_emptied tab (r := rid) hn hem record values
              refine .inr ⟨fun hc => Option.some_ne_none record (hc hroot _ rfl),
                ⟨Function.update s.bitmap rid true, Function.update s.slots rid record, s.ihs,
                  .insertTuple rid :: s.writeSet⟩, ?_, hn, hem, List.cons_ne_nil _ _⟩
              rw [DmlPlan.after, DmlPlan.exec, hrun]
  | update clauses rids =>
      cases hrids hlegal.2
      exact .inl ⟨nofun, rfl⟩
  | delete rids =>
      cases hrids hlegal.2
      exact .inl ⟨fun _ hne => absurd rfl hne, rfl⟩

theorem emptied_run (sts : List DmlPlan) (hn : n ≠ 0) (hem : ∀ i, Emptied (s.ihs i))
    (hnone : ∀ q, s.rows q = none) (hlegal : AllAt tab DmlPlan.Legal sts s) :
    (AllAt tab DmlPlan.Safe sts s ∧ runStatements tab sts s = s) ∨
    (¬ AllAt tab DmlPlan.Safe sts s ∧
      ∃ e s', (Exec.abort tab).run (runStatements tab sts s) = .error e s') := by
  induction sts with
  | nil => exact .inl ⟨trivial, rfl⟩
  | cons st sts iht =>
      rcases after_emptied tab hn hem hnone hlegal.1 with ⟨hsafe, hst⟩ | ⟨hsafe, s', hst, hdead⟩
      · rw [runStatements_on hst]
        have hiff : AllAt tab DmlPlan.Safe (st :: sts) s ↔ AllAt tab DmlPlan.Safe sts s :=
          ⟨fun h => h.tail hst, fun h => ⟨hsafe, fun _ => by rw [hst]; exact h⟩⟩
        rw [hiff]
        exact iht (hlegal.tail hst)
      · rw [runStatements_on hst]
        exact .inr ⟨fun h => hsafe h.1, doomed_run sts (hlegal.tail hst) (.inl hdead)⟩

omit [∀ i, IxKey (K i)] [∀ i, LinearOrder (K i)] [∀ i, LawfulIxKey (K i)] in
theorem Holds.ext {k : Type} {m m' : IxMap k} {key : Row → k} (h : Holds m key L)
    (h' : Holds m' key L) : m = m' := by
  funext x
  refine Option.ext fun r => ?_
  rw [h x r, h' x r]

theorem Consistent.enumerates (h : Consistent tab L s) (i : Fin n) :
    ∃ m, Enumerates (s.ihs i) m ∧ Holds m (tab.key i) L := by
  rcases h.index with hix | ⟨hnone, hem⟩
  · obtain ⟨-, m, hs, hm⟩ := hix i
    exact ⟨m, hs.enumerates, hm⟩
  · refine ⟨IxMap.empty, (hem i).scan, fun k r => ⟨nofun, ?_⟩⟩
    rintro ⟨row, hr, -⟩
    rw [hnone r] at hr
    cases hr

theorem restores_of_consistent {s' : TableState n K} (h : Consistent tab s.rows s)
    (hrun : (Exec.abort tab).run (runStatements tab sts s) = .ok () s') (h' : Consistent tab s.rows s') :
    Restores tab s sts := by
  refine ⟨s', hrun, h'.rows, fun i => ?_⟩
  obtain ⟨m, hm, hh⟩ := h.enumerates i
  obtain ⟨m', hm', hh'⟩ := h'.enumerates i
  exact ⟨m, hm, by rw [hh.ext hh']; exact hm'⟩

/-- A transaction is rolled back if and only if it did not take out or change the only row of
an indexed table. -/
theorem abort_restores_iff (tab : TabMeta n K) (s : TableState n K) (sts : List DmlPlan)
    (h : Consistent tab s.rows s) (hws : s.writeSet = []) (hlegal : AllAt tab DmlPlan.Legal sts s) :
    Restores tab s sts ↔ AllAt tab DmlPlan.Safe sts s := by
  have hthrow : (∃ e s', (Exec.abort tab).run (runStatements tab sts s) = .error e s') →
      ¬ Restores tab s sts := by
    rintro ⟨e, s', he⟩ ⟨s'', hok, -⟩
    rw [he] at hok
    cases hok
  by_cases hA : Agrees tab s.rows s
  · constructor
    · intro hres
      by_contra hnot
      exact hthrow (broken_run sts hlegal hA hnot) hres
    · intro hsafe
      obtain ⟨s', hrun, hC⟩ := safe_run sts hlegal hsafe hA (by rw [hws]; exact .start)
      exact restores_of_consistent h hrun hC
  · have hn : n ≠ 0 := by
      rintro rfl
      exact hA ⟨rfl, fun i => i.elim0⟩
    obtain ⟨hnone, hem⟩ := h.index.resolve_left fun hix => hA ⟨rfl, hix⟩
    rcases emptied_run sts hn hem hnone hlegal with ⟨hsafe, hrun⟩ | ⟨hnot, herr⟩
    · refine ⟨fun _ => hsafe, fun _ => restores_of_consistent h ?_ h⟩
      rw [hrun, abort_eq hws]
      rfl
    · exact ⟨fun hres => absurd hres (hthrow herr), fun hsafe => absurd hsafe hnot⟩

end Run

section Fresh

def KeyLayout.copy (L : KeyLayout) (raw : List Bytes) : Key L :=
  ⟨raw.flatten.takeD (colTotLen L.cols) 0, List.takeD_length ..⟩

def freshTable {n : Nat} (lay : Fin n → KeyLayout) : TableState n (fun i => Key (lay i)) :=
  ⟨fun _ => false, fun _ _ => [], fun i => createIndex (lay i), []⟩

theorem freshTable_agrees {n : Nat} (lay : Fin n → KeyLayout) (tab : TabMeta n (fun i => Key (lay i))) :
    Agrees tab (fun _ => none) (freshTable lay) := by
  refine ⟨rfl, fun i => ⟨rfl, IxMap.empty, createIndex_sim _, fun k r => ⟨nofun, ?_⟩⟩⟩
  rintro ⟨row, hr, -⟩
  cases hr

def idTab : TabMeta 1 (fun _ => Key intLayout) := ⟨fun _ => ["id"], fun _ => intLayout.copy⟩

def idRow (b : UInt8) : Row := fun _ => [b, 0, 0, 0]

theorem abort_restores_iff_fresh : Restores idTab (freshTable fun _ => intLayout)
    [.insert [(some (idRow 1), ⟨1, 0⟩), (some (idRow 2), ⟨1, 1⟩)], .insert [(some (idRow 2), ⟨1, 2⟩)],
      .delete [⟨1, 0⟩]] := by
  refine (abort_restores_iff idTab _ _ (freshTable_agrees _ _).consistent rfl ?_).2 ?_
  · exact ⟨⟨by decide, by decide⟩, fun _ =>
      ⟨⟨by decide, by decide⟩, fun _ => ⟨⟨by decide, by decide⟩, fun _ => trivial⟩⟩⟩
  · refine ⟨fun hroot => absurd hroot ?_, fun _ =>
      ⟨fun hroot => absurd hroot ?_, fun _ => ⟨fun _ _ => ⟨⟨1, 1⟩, ?_⟩,
      fun _ => trivial⟩⟩⟩
    all_goals decide

def oneRow : TableState 1 (fun _ => Key intLayout) :=
  { (DmlPlan.after idTab (.insert [(some (idRow 1), ⟨1, 0⟩)]) (freshTable fun _ => intLayout)).2
    with writeSet := [] }

theorem oneRow_agrees : Agrees idTab oneRow.rows oneRow := by
  have hkept : KeptBy idTab (fun _ _ => True) (Other 1) :=
    ⟨fun _ _ => trivial, fun _ _ _ => trivial, fun _ _ _ _ => trivial, fun _ _ _ _ => trivial⟩
  have hfresh := freshTable_agrees (fun _ => intLayout) idTab
  rcases (DmlPlan.insert [(some (idRow 1), ⟨1, 0⟩)]).after_safe hkept hfresh trivial ⟨by decide, by decide⟩
      (fun hroot => absurd hroot hfresh.not_rootless) with ⟨L', s', hst, hA, -⟩ | ⟨_, _, _, _, _, s', hst, -⟩
  · have hone : oneRow = { s' with writeSet := [] } := by rw [oneRow, hst]
    rw [hone]
    exact ⟨rfl, by rw [← hA.rows] at hA; exact hA.index⟩
  · have : (DmlPlan.after idTab (.insert [(some (idRow 1), ⟨1, 0⟩)]) (freshTable fun _ => intLayout)).1 =
      true := by decide
    rw [hst] at this
    cases this

/-- Rolling back the update of the only row throws. -/
theorem abort_update_throws : Consistent idTab oneRow.rows oneRow ∧ oneRow.writeSet = [] ∧
    AllAt idTab DmlPlan.Legal [.update [⟨"id", [2, 0, 0, 0]⟩] [⟨1, 0⟩]] oneRow ∧
    ¬ Restores idTab oneRow [.update [⟨"id", [2, 0, 0, 0]⟩] [⟨1, 0⟩]] := by
  refine ⟨oneRow_agrees.consistent, rfl, ⟨⟨by decide, by decide⟩, fun _ => trivial⟩, ?_⟩
  rintro ⟨s', hrun, -⟩
  have hthrow : (match (Exec.abort idTab).run
    (runStatements idTab [.update [⟨"id", [2, 0, 0, 0]⟩] [⟨1, 0⟩]] oneRow) with
    | .ok _ _ => false
    | .error _ _ => true) = true := by decide
  rw [hrun] at hthrow
  cases hthrow

end Fresh

end Rmdb
