import Rmdb.Execution.ExplicitTxn

namespace Rmdb

open Exec IxManager

variable {n : Nat} {K : Fin n → Type} [∀ i, IxKey (K i)]

section Model

variable (tab : TabMeta n K)

/-- A statement outside an explicit transaction: it is rolled back by a
`TransactionAbortException`, and committed in every case. -/
def autocommit (st : DmlPlan) (s : TableState n K) : TableState n K :=
  if (st.after tab s).1 then { (st.after tab s).2 with writeSet := [] }
  else match (Exec.abort tab).run (st.after tab s).2 with
    | .ok _ s' => { s' with writeSet := [] }
    | .error _ s' => { s' with writeSet := [] }

def Along (P : DmlPlan → TableState n K → Prop) : List DmlPlan → TableState n K → Prop
  | [], _ => True
  | st :: sts, s => P st s ∧ Along P sts (autocommit tab st s)

def AfterEach (P : TableState n K → Prop) : List DmlPlan → TableState n K → Prop
  | [], _ => True
  | st :: sts, s => P (autocommit tab st s) ∧ AfterEach P sts (autocommit tab st s)

/-- Every index holds one entry for each live row, and no other. -/
def IndexesAgree (s : TableState n K) : Prop := ∀ i, ∃ m, Enumerates (s.ihs i) m ∧ Holds m (tab.key i) s.rows

/-- An update that moves the record in every index that it lists, and lists each index once. -/
def Moves (clauses : List SetClause) (old : Row) : Prop :=
  (tab.updateIndexes clauses).Nodup ∧
    ∀ i ∈ tab.updateIndexes clauses, tab.key i (setRecord clauses old) ≠ tab.key i old

/-- An insert of a row finds the root of each index, and an update of the only row of an indexed
table does not fail. -/
def DmlPlan.Kept (st : DmlPlan) (s : TableState n K) : Prop :=
  match st with
  | .insert values => Rootless s → ∀ v ∈ values.head?, v.1 = none
  | .update clauses rids => ∀ r ∈ rids, Other n s.rows r ∨ Moves tab clauses (s.slots r)
  | .delete _ => True

end Model

variable [∀ i, LinearOrder (K i)] [∀ i, LawfulIxKey (K i)] {tab : TabMeta n K} {L : Rows}
  {s s' : TableState n K} {st : DmlPlan}

omit [∀ i, LinearOrder (K i)] [∀ i, LawfulIxKey (K i)] in
theorem autocommit_on (h : st.after tab s = (true, s')) :
    autocommit tab st s = { s' with writeSet := [] } := by
  rw [autocommit, h]
  rfl

omit [∀ i, LawfulIxKey (K i)] in
theorem Consistent.commit (h : Consistent tab L s) :
    Consistent tab L { s with writeSet := [] } := ⟨h.rows, h.index⟩

omit [∀ i, LawfulIxKey (K i)] in
theorem Consistent.self (h : Consistent tab L s) : Consistent tab s.rows s := by
  rw [h.rows]
  exact h

theorem Agrees.autocommit_safe (h : Agrees tab L s) (hws : s.writeSet = []) (hlegal : st.Legal s)
    (hsafe : st.Safe s) :
    Consistent tab (autocommit tab st s).rows (autocommit tab st s) := by
  rcases st.after_safe (keptBy_rolls) h (by rw [hws]; exact .start) hlegal hsafe with
    ⟨L', s', hst, hA, -⟩ | ⟨L', W, r, old, new, s', hst, hws', hR, hother, hhalf⟩
  · rw [autocommit_on hst]
    exact hA.consistent.commit.self
  · obtain ⟨s1, hA1, hrun1⟩ := undoWrites_half (W := W) hhalf hother
    obtain ⟨s2, hC, hrun2⟩ := undoWrites_spec hR hA1 []
    rw [List.append_nil] at hrun2
    have habort : (Exec.abort tab).run s' = .ok () s2 := by
      rw [abort_eq hws', hrun1, hrun2]
      rfl
    have hauto : autocommit tab st s = { s2 with writeSet := [] } := by
      rw [autocommit, hst]
      simp only [Bool.false_eq_true, if_false, habort]
    rw [hauto]
    exact hC.commit.self

/-- The two kinds of statement that a rollback could not undo, when they go through. -/
theorem Agrees.autocommit_kept (h : Agrees tab L s) (hlegal : st.Legal s) (hkept : st.Kept tab s)
    (hsafe : ¬ st.Safe s) :
    Consistent tab (autocommit tab st s).rows (autocommit tab st s) := by
  cases st with
  | insert values => exact absurd hkept hsafe
  | update clauses rids =>
      obtain ⟨r, rfl, old, hr, hn, honly⟩ := update_only h hlegal hsafe
      have hold : s.slots r = old := slot_eq h.rows hr
      have hmoves : Moves tab clauses old := by
        rw [← hold]
        refine (hkept r List.mem_cons_self).resolve_left fun hother => ?_
        obtain ⟨q, hqr, hq⟩ := hother hn
        rw [h.rows] at hq
        exact hq (honly q hqr)
      obtain ⟨s', -, ⟨hA, hrun, -⟩ | ⟨-, -, i, hi, hwhy⟩⟩ := updateRow_spec clauses h hr
      · have hst : DmlPlan.after tab (.update clauses [r]) s = (true, s') := by
          rw [DmlPlan.after, DmlPlan.exec, hrun]
          rfl
        rw [autocommit_on hst]
        exact hA.consistent.commit.self
      · rcases hwhy with ⟨hdup, -⟩ | ⟨-, q, row, hq, hkey⟩
        · exact absurd hmoves.1 hdup
        · have hqr : q = r := by
            by_contra hc
            rw [honly q hc] at hq
            cases hq
          rw [hqr, hr] at hq
          cases hq
          exact absurd hkey.symm (hmoves.2 i hi)
  | delete rids =>
      simp only [DmlPlan.Legal, DmlPlan.Safe, h.rows, Classical.not_imp, not_exists, not_and,
        not_not] at hlegal hsafe
      obtain ⟨hn, hne, hall⟩ := hsafe
      obtain ⟨s', hrun, hnone, hdead⟩ := deleteNext_all rids hn h hne hlegal.1 hlegal.2 hall
      have hst : DmlPlan.after tab (.delete rids) s = (true, s') := by rw [DmlPlan.after, DmlPlan.exec, hrun]
      have hC : Consistent tab s'.rows s' := ⟨rfl, .inr ⟨hnone, hdead.emptied⟩⟩
      rw [autocommit_on hst]
      exact hC.commit.self

omit [∀ i, LinearOrder (K i)] [∀ i, LawfulIxKey (K i)] in
theorem autocommit_writeSet : (autocommit tab st s).writeSet = [] := by
  rw [autocommit]
  split
  · rfl
  · split <;> rfl

theorem Consistent.autocommit (h : Consistent tab s.rows s) (hws : s.writeSet = []) (hlegal : st.Legal s)
    (hkept : st.Kept tab s) : Consistent tab (autocommit tab st s).rows (autocommit tab st s) := by
  by_cases hA : Agrees tab s.rows s
  · by_cases hsafe : st.Safe s
    · exact hA.autocommit_safe hws hlegal hsafe
    · exact hA.autocommit_kept hlegal hkept hsafe
  · have hn : n ≠ 0 := by
      rintro rfl
      exact hA ⟨rfl, fun i => i.elim0⟩
    obtain ⟨hnone, hem⟩ := h.index.resolve_left fun hix => hA ⟨rfl, hix⟩
    rcases after_emptied tab hn hem hnone hlegal with ⟨-, hst⟩ | ⟨hnot, -⟩
    · rw [autocommit_on hst]
      exact h.commit.self
    · refine absurd ?_ hnot
      cases st with
      | insert values => exact hkept
      | update clauses rids => exact fun r hr => absurd (hnone r) (hlegal.2 r hr)
      | delete rids =>
          intro _ hne
          obtain ⟨r, hr⟩ := List.exists_mem_of_ne_nil _ hne
          exact absurd (hnone r) (hlegal.2 r hr)

/-- Table and indexes agree after every statement of a session. -/
theorem indexes_agree_after_each (tab : TabMeta n K) (s : TableState n K) (sts : List DmlPlan)
    (h : Consistent tab s.rows s) (hws : s.writeSet = []) (hlegal : Along tab DmlPlan.Legal sts s)
    (hkept : Along tab (DmlPlan.Kept tab) sts s) :
    AfterEach tab (IndexesAgree tab) sts s := by
  induction sts generalizing s with
  | nil => trivial
  | cons st sts iht =>
      have hC := h.autocommit hws hlegal.1 hkept.1
      exact ⟨hC.enumerates, iht _ hC autocommit_writeSet hlegal.2 hkept.2⟩

theorem indexes_agree_after_each_fresh :
    AfterEach idTab (IndexesAgree idTab) [.insert [(some (idRow 1), ⟨1, 0⟩)],
      .insert [(some (idRow 1), ⟨1, 1⟩)],
      .update [⟨"id", [2, 0, 0, 0]⟩] [⟨1, 0⟩], .delete [⟨1, 0⟩]] (freshTable fun _ => intLayout) := by
  refine indexes_agree_after_each idTab _ _ (freshTable_agrees _ _).consistent rfl ?_ ?_
  · refine ⟨⟨by decide, by decide⟩, ⟨by decide, by decide⟩, ⟨by decide, by decide⟩,
      ⟨by decide, by decide⟩, trivial⟩
  · refine ⟨fun hroot => absurd hroot (by decide), fun hroot => absurd hroot (by decide),
      ?_, trivial, trivial⟩
    intro r hr
    cases List.mem_singleton.1 hr
    exact .inr ⟨by decide, by decide⟩

theorem Enumerates.eq_empty {k : Type} [IxKey k] {ih : IxIndexHandle k} {m : IxMap k} (h : Enumerates ih m)
    (hend : ih.leafEnd = .ok ih.leafBegin) : m = IxMap.empty := by
  obtain ⟨end_, es, hend', hscan, -, hes⟩ := h
  have hpos : end_ = ih.leafBegin := Except.ok.inj (hend'.symm.trans hend)
  have hself : ih.scanFrom ih.leafBegin es.length ih.leafBegin = .ok [] := by
    cases es.length <;> rw [IxIndexHandle.scanFrom, if_pos rfl]
  have hnil := hscan es.length le_rfl
  rw [hpos, hself] at hnil
  cases hnil
  funext x
  refine Option.ext fun r => ?_
  rw [← hes x r]
  exact ⟨by simp, by rintro ⟨⟩⟩

/-- A row inserted after the table has been emptied stays without its index entry. -/
theorem emptied_index_disagrees :
    Along idTab DmlPlan.Legal [.insert [(some (idRow 1), ⟨1, 0⟩)], .delete [⟨1, 0⟩],
      .insert [(some (idRow 2), ⟨1, 0⟩)]] (freshTable fun _ => intLayout) ∧
    ¬ AfterEach idTab (IndexesAgree idTab) [.insert [(some (idRow 1), ⟨1, 0⟩)], .delete [⟨1, 0⟩],
      .insert [(some (idRow 2), ⟨1, 0⟩)]] (freshTable fun _ => intLayout) := by
  refine ⟨⟨⟨by decide, by decide⟩, ⟨by decide, by decide⟩, ⟨by decide, by decide⟩, trivial⟩, ?_⟩
  rintro ⟨-, -, hagree, -⟩
  obtain ⟨m, hscan, hm⟩ := hagree 0
  have hmem := (hm (idTab.key 0 (idRow 2)) ⟨1, 0⟩).2 ⟨idRow 2, rfl, rfl⟩
  rw [hscan.eq_empty (by rfl)] at hmem
  cases hmem

end Rmdb
