import Rmdb.Execution.Autocommit

namespace Rmdb

open Exec IxManager

variable {n : Nat} {K : Fin n → Type}

def LeavesBit {α : Type} (q : Rid) (x : Exec K α) : Prop := ∀ s,
  match x.run s with
  | .ok _ s' | .error _ s' => s'.bitmap q = s.bitmap q

namespace LeavesBit

variable {α β : Type} {q r : Rid} {x : Exec K α} {f : α → Exec K β}

theorem of_modify {g : TableState n K → TableState n K} (h : ∀ s, (g s).bitmap q = s.bitmap q) :
    LeavesBit q (modify g : Exec K Unit) := fun s => h s

theorem pure (a : α) : LeavesBit q (Pure.pure a : Exec K α) := fun _ => rfl

theorem throw (e : ExecError) : LeavesBit q (throw e : Exec K α) := fun _ => rfl

theorem bind (hx : LeavesBit q x) (hf : ∀ a, LeavesBit q (f a)) : LeavesBit q (x >>= f) := by
  intro s
  have hs := hx s
  cases hrun : x.run s with
  | error e s' =>
      rw [hrun] at hs
      rw [bind_error hrun]
      exact hs
  | ok a s' =>
      rw [hrun] at hs
      have hs' := hf a s'
      rw [bind_ok hrun]
      cases hrun' : (f a).run s' with
      | error e s'' =>
          rw [hrun'] at hs'
          exact hs'.trans hs
      | ok b s'' =>
          rw [hrun'] at hs'
          exact hs'.trans hs

theorem insertRecord (hr : r ≠ q) (record : Row) : LeavesBit q (Exec.insertRecord r record : Exec K Unit) :=
  of_modify fun _ => Function.update_of_ne hr.symm _ _

theorem deleteRecord (hr : r ≠ q) : LeavesBit q (Exec.deleteRecord r : Exec K Unit) :=
  of_modify fun _ => Function.update_of_ne hr.symm _ _

theorem appendWriteRecord (w : WriteRecord) : LeavesBit q (Exec.appendWriteRecord w : Exec K Unit) :=
  of_modify fun _ => rfl

variable [∀ i, IxKey (K i)] {tab : TabMeta n K}

theorem insertEntry (i : Fin n) (key : K i) (rid : Rid) : LeavesBit q (Exec.insertEntry i key rid) := by
  intro s
  have hget : (get : Exec K (TableState n K)).run s = .ok s s := rfl
  cases hrun : (s.ihs i).insertEntry key rid with
  | ok res =>
      obtain ⟨p, b, ih⟩ := res
      rw [insertEntry_ok hrun]
  | error e =>
      rw [Exec.insertEntry, bind_ok hget]
      simp only [hrun]
      rfl

theorem deleteEntry (i : Fin n) (key : K i) (rid : Option Rid) :
    LeavesBit q (Exec.deleteEntry i key rid) := by
  intro s
  have hget : (get : Exec K (TableState n K)).run s = .ok s s := rfl
  cases hrun : (s.ihs i).deleteEntry key rid with
  | ok res =>
      obtain ⟨b, ih⟩ := res
      rw [deleteEntry_ok hrun]
  | error e =>
      rw [Exec.deleteEntry, bind_ok hget]
      simp only [hrun]
      rfl

theorem deleteKeys (record : Row) (is : List (Fin n)) : LeavesBit q (Exec.deleteKeys tab record is) := by
  induction is with
  | nil => exact pure ()
  | cons i is ih => exact (deleteEntry i _ none).bind fun _ => ih

theorem insertKeys (hr : r ≠ q) (record : Row) (done is : List (Fin n)) :
    LeavesBit q (Exec.insertKeys tab r record done is) := by
  induction is generalizing done with
  | nil => exact pure ()
  | cons i is ih =>
      refine (insertEntry i _ r).bind fun success => ?_
      cases success with
      | true => exact ih (done ++ [i])
      | false => exact (deleteRecord hr).bind fun _ => (deleteKeys record done).bind fun _ => throw _

theorem insertNext {values : List (Option Row × Rid)} (h : ∀ v ∈ values, v.2 ≠ q) :
    LeavesBit q (Exec.insertNext tab values) := by
  induction values with
  | nil => exact pure ()
  | cons v values ih =>
      obtain ⟨record, rid⟩ := v
      cases record with
      | none => exact throw _
      | some record =>
          have hr : rid ≠ q := h _ List.mem_cons_self
          refine (insertRecord hr record).bind fun _ => (appendWriteRecord _).bind fun _ => ?_
          exact (insertKeys hr record [] _).bind fun _ => ih fun v hv => h v (List.mem_cons_of_mem _ hv)

omit [∀ i, IxKey (K i)] in
theorem getRecord (rid : Rid) : LeavesBit q (Exec.getRecord rid : Exec K Row) := fun _ => rfl

omit [∀ i, IxKey (K i)] in
theorem updateRecord (rid : Rid) (record : Row) : LeavesBit q (Exec.updateRecord rid record : Exec K Unit) :=
  of_modify fun _ => rfl

theorem updateKeys (rid : Rid) (old new : Row) (is : List (Fin n)) :
    LeavesBit q (Exec.updateKeys tab rid old new is) := by
  induction is with
  | nil => exact pure ()
  | cons i is ih =>
      refine (insertEntry i _ rid).bind fun success => ?_
      cases success with
      | true => exact (deleteEntry i _ none).bind fun _ => ih
      | false => exact throw _

theorem updateNext (clauses : List SetClause) (rids : List Rid) :
    LeavesBit q (Exec.updateNext tab clauses rids) := by
  induction rids with
  | nil => exact pure ()
  | cons rid rids ih =>
      refine (getRecord rid).bind fun record => (updateRecord rid _).bind fun _ =>
        (appendWriteRecord _).bind fun _ => ?_
      exact (updateKeys rid record _ _).bind fun _ => ih

theorem deleteNext {rids : List Rid} (h : q ∉ rids) : LeavesBit q (Exec.deleteNext tab rids) := by
  induction rids with
  | nil => exact pure ()
  | cons rid rids ih =>
      have hr : rid ≠ q := fun hc => h (hc ▸ List.mem_cons_self)
      refine (getRecord rid).bind fun record => (deleteRecord hr).bind fun _ =>
        (appendWriteRecord _).bind fun _ => ?_
      exact (deleteKeys record _).bind fun _ => ih fun hc => h (List.mem_cons_of_mem _ hc)

end LeavesBit

section Model

variable [∀ i, IxKey (K i)] (tab : TabMeta n K)

/-- The rows and the entries of every index are those of before. -/
def Untouched (s s' : TableState n K) : Prop :=
  s'.rows = s.rows ∧ ∀ i, ∃ m, Enumerates (s.ihs i) m ∧ Enumerates (s'.ihs i) m

def FirstRefused (s : TableState n K) (values : List (Option Row × Rid)) : Prop :=
  ∃ v ∈ values.head?, v.1 = none ∨
    ∃ record, v.1 = some record ∧ ∃ i q row, s.rows q = some row ∧ tab.key i row = tab.key i record

end Model

section Statement

variable [∀ i, IxKey (K i)] [∀ i, LinearOrder (K i)] [∀ i, LawfulIxKey (K i)] {tab : TabMeta n K} {L : Rows}
  {s s' : TableState n K} {values : List (Option Row × Rid)} {record : Row} {rid : Rid} {e : ExecError}

theorem untouched_of_consistent (h : Consistent tab s.rows s) (h' : Consistent tab s.rows s') :
    Untouched s s' := by
  refine ⟨h'.rows, fun i => ?_⟩
  obtain ⟨m, hm, hh⟩ := h.enumerates i
  obtain ⟨m', hm', hh'⟩ := h'.enumerates i
  exact ⟨m, hm, by rw [hh.ext hh']; exact hm'⟩

omit [∀ i, LinearOrder (K i)] [∀ i, LawfulIxKey (K i)] in
theorem autocommit_throw (hrun : (insertNext tab values).run s = .error e s') (he : e ≠ .transactionAbort) :
    autocommit tab (.insert values) s = { s' with writeSet := [] } := by
  refine autocommit_on ?_
  rw [DmlPlan.after, DmlPlan.exec, hrun]
  cases e with
  | transactionAbort => exact absurd rfl he
  | incompatibleType | indexDuplicateKey | index => rfl

omit [∀ i, LinearOrder (K i)] [∀ i, LawfulIxKey (K i)] in
theorem not_untouched (hfree : s.rows rid = none) (hrun : (insertNext tab values).run s = .error e s')
    (he : e ≠ .transactionAbort) (hset : s'.bitmap rid = true) :
    ¬ Untouched s (autocommit tab (.insert values) s) := by
  rintro ⟨hrows, -⟩
  have hrow := congrFun hrows rid
  rw [autocommit_throw hrun he, hfree, TableState.rows] at hrow
  simp [hset] at hrow

omit [∀ i, IxKey (K i)] [∀ i, LinearOrder (K i)] [∀ i, LawfulIxKey (K i)] in
theorem keptBy_true : KeptBy tab (fun _ _ => True) (Other n) :=
  ⟨fun _ _ => trivial, fun _ _ _ => trivial, fun _ _ _ _ => trivial, fun _ _ _ _ => trivial⟩

theorem Agrees.insert_not_abort (h : Agrees tab L s) (hnd : (values.map Prod.snd).Nodup)
    (hfree : ∀ v ∈ values, L v.2 = none) (hrun : (insertNext tab values).run s = .error e s') :
    e ≠ .transactionAbort := by
  rintro rfl
  obtain ⟨L', s'', hA, _, hcase⟩ := insertNext_spec keptBy_true values h trivial hnd hfree
  rw [hrun] at hcase
  rcases hcase with hc | hc | hc <;> cases hc

/-- An INSERT that throws and is then committed leaves no trace exactly when it is its first row
that is refused. -/
theorem failed_insert_untouched_iff (tab : TabMeta n K) (s : TableState n K)
    (values : List (Option Row × Rid)) (h : Consistent tab s.rows s)
    (hlegal : DmlPlan.Legal (.insert values) s)
    (hthrow : ∃ e s', (insertNext tab values).run s = .error e s') :
    Untouched s (autocommit tab (.insert values) s) ↔ FirstRefused tab s values := by
  obtain ⟨e, s', hrun⟩ := hthrow
  cases values with
  | nil => cases hrun
  | cons v values =>
      obtain ⟨record, rid⟩ := v
      have hfree := hlegal.2 _ List.mem_cons_self
      obtain ⟨hnot, hnd⟩ := List.nodup_cons.1 hlegal.1
      cases record with
      | none =>
          cases hrun
          have hsame : autocommit tab (.insert ((none, rid) :: values)) s = { s with writeSet := [] } :=
            autocommit_throw rfl nofun
          rw [hsame]
          exact iff_of_true (untouched_of_consistent h h.commit) ⟨_, rfl, .inl rfl⟩
      | some record =>
          have hfirst : FirstRefused tab s ((some record, rid) :: values) ↔
              ∃ i q row, s.rows q = some row ∧ tab.key i row = tab.key i record := by
            simp [FirstRefused]
          rw [hfirst]
          by_cases hA : Agrees tab s.rows s
          · obtain ⟨s₁, -, ⟨hA₁, hstep⟩ | ⟨hA₁, hstep, hdup⟩⟩ := insertRow_spec record hA hfree
            · -- the row is in; whatever throws behind it, nobody takes it out
              rw [hstep] at hrun
              have hfree' : ∀ v ∈ values, Function.update s.rows rid (some record) v.2 = none := by
                intro v hv
                have hne : v.2 ≠ rid := fun hc => hnot (List.mem_map.2 ⟨v, hv, hc⟩)
                rw [Function.update_of_ne hne]
                exact hlegal.2 v (List.mem_cons_of_mem _ hv)
              have hbit : s'.bitmap rid = s₁.bitmap rid := by
                have hleaves : LeavesBit rid (insertNext tab values) :=
                  LeavesBit.insertNext fun v hv hc => hnot (List.mem_map.2 ⟨v, hv, hc⟩)
                have hbit := hleaves s₁
                rw [hrun] at hbit
                exact hbit
              have hset : s'.bitmap rid = true := by
                rw [hbit, bitmap_iff hA₁.rows, Function.update_self]
                simp
              refine iff_of_false (not_untouched hfree (by rw [hstep, hrun])
                (hA₁.insert_not_abort hnd hfree' hrun) hset) ?_
              rintro ⟨i, q, row, hq, hkey⟩
              have hqr : q ≠ rid := by
                rintro rfl
                rw [hfree] at hq
                cases hq
              refine hqr (hA₁.uniq i q rid row record ?_ (Function.update_self ..) hkey)
              rw [Function.update_of_ne hqr]
              exact hq
            · rw [autocommit_throw (hstep values) nofun]
              exact iff_of_true (untouched_of_consistent h hA₁.consistent.commit) hdup
          · have hn : n ≠ 0 := by
              rintro rfl
              exact hA ⟨rfl, fun i => i.elim0⟩
            obtain ⟨hnone, hem⟩ := h.index.resolve_left fun hix => hA ⟨rfl, hix⟩
            obtain ⟨e', hstay⟩ := insertNext_emptied tab (r := rid) hn hem record values
            refine iff_of_false (not_untouched hfree hstay nofun (Function.update_self ..)) ?_
            rintro ⟨i, q, row, hq, -⟩
            rw [hnone q] at hq
            cases hq

end Statement

section Example

theorem oneRow_throws {values : List (Option Row × Rid)}
    (h : (match (insertNext idTab values).run oneRow with
      | .error .indexDuplicateKey _ => true
      | _ => false) = true) : ∃ s', (insertNext idTab values).run oneRow = .error .indexDuplicateKey s' := by
  cases hrun : (insertNext idTab values).run oneRow with
  | ok a s' => simp [hrun] at h
  | error e s' =>
      cases e with
      | indexDuplicateKey => exact ⟨s', rfl⟩
      | incompatibleType | transactionAbort | index => simp [hrun] at h

theorem failed_insert_untouched_iff_first :
    FirstRefused idTab oneRow [(some (idRow 1), ⟨1, 1⟩), (some (idRow 2), ⟨1, 2⟩)] ∧
    Untouched oneRow (autocommit idTab
      (.insert [(some (idRow 1), ⟨1, 1⟩), (some (idRow 2), ⟨1, 2⟩)]) oneRow) := by
  have hfirst : FirstRefused idTab oneRow [(some (idRow 1), ⟨1, 1⟩), (some (idRow 2), ⟨1, 2⟩)] :=
    ⟨_, rfl, .inr ⟨idRow 1, rfl, 0, ⟨1, 0⟩, idRow 1, rfl, rfl⟩⟩
  have hthrow : ∃ s', (insertNext idTab [(some (idRow 1), ⟨1, 1⟩), (some (idRow 2), ⟨1, 2⟩)]).run oneRow =
      .error .indexDuplicateKey s' := oneRow_throws (by decide)
  exact ⟨hfirst, (failed_insert_untouched_iff idTab oneRow _ oneRow_agrees.consistent ⟨by decide, by decide⟩
    ⟨_, hthrow⟩).2 hfirst⟩

/-- The second row is refused, and the first one stays. -/
theorem second_row_refused : Consistent idTab oneRow.rows oneRow ∧
    DmlPlan.Legal (.insert [(some (idRow 2), ⟨1, 1⟩), (some (idRow 1), ⟨1, 2⟩)]) oneRow ∧
    (∃ s', (insertNext idTab [(some (idRow 2), ⟨1, 1⟩), (some (idRow 1), ⟨1, 2⟩)]).run oneRow =
      .error .indexDuplicateKey s') ∧
    ¬ Untouched oneRow (autocommit idTab
      (.insert [(some (idRow 2), ⟨1, 1⟩), (some (idRow 1), ⟨1, 2⟩)]) oneRow) := by
  refine ⟨oneRow_agrees.consistent, ⟨by decide, by decide⟩, oneRow_throws (by decide), ?_⟩
  rintro ⟨hrows, -⟩
  have hrow : ((autocommit idTab (.insert [(some (idRow 2), ⟨1, 1⟩), (some (idRow 1), ⟨1, 2⟩)])
    oneRow).rows ⟨1, 1⟩).isSome =
      (oneRow.rows ⟨1, 1⟩).isSome := by rw [hrows]
  revert hrow
  decide

end Example

end Rmdb
