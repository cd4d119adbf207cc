import Rmdb.Execution.ExplicitTxn

namespace Rmdb

open Exec IxManager

variable {n : Nat} {K : Fin n → Type}

def updateRows (clauses : List SetClause) (L : Rows) (rids : List Rid) : Rows := fun q =>
  if q ∈ rids then (L q).map (setRecord clauses) else L q

section Model

variable (tab : TabMeta n K) (clauses : List SetClause)

def RowClear (L : Rows) (old : Row) : Prop :=
  (tab.updateIndexes clauses).Nodup ∧
    ∀ i ∈ tab.updateIndexes clauses, ∀ q row, L q = some row →
    tab.key i row ≠ tab.key i (setRecord clauses old)

def AllClear : Rows → List Rid → Prop
  | _, [] => True
  | L, r :: rids =>
      (∀ old, L r = some old → RowClear tab clauses L old) ∧ AllClear (updateRows clauses L [r]) rids

/-- Each index has at most one of its columns among the assignments, and if it has one, no selected row keeps
its key there or is given the key that a row selected behind it has. -/
def Staggered (L : Rows) (rids : List Rid) : Prop :=
  (tab.updateIndexes clauses).Nodup ∧
    ∀ i ∈ tab.updateIndexes clauses, ∀ front r back, rids = front ++ r :: back →
    ∀ old, L r = some old → ∀ q ∈ r :: back, ∀ row, L q = some row →
    tab.key i row ≠ tab.key i (setRecord clauses old)

end Model

section Rows

variable {tab : TabMeta n K} {clauses : List SetClause} {L : Rows} {rids front back : List Rid}
  {r q : Rid} {old : Row}

theorem updateRows_cons (hr : r ∉ rids) :
    updateRows clauses (updateRows clauses L [r]) rids = updateRows clauses L (r :: rids) := by
  funext q
  by_cases hq : q = r
  · subst hq
    simp [updateRows, hr]
  · simp [updateRows, hq]

theorem updateRows_single (hr : L r = some old) :
    updateRows clauses L [r] = Function.update L r (some (setRecord clauses old)) := by
  funext q
  by_cases hq : q = r
  · subst hq
    simp [updateRows, hr]
  · simp [updateRows, hq]

theorem updateRows_of_notMem (hq : q ∉ rids) : updateRows clauses L rids q = L q := if_neg hq

theorem updateRows_of_mem (hq : q ∈ rids) (hrow : L q = some old) :
    updateRows clauses L rids q = some (setRecord clauses old) := by
  rw [updateRows, if_pos hq, hrow]
  rfl

theorem allClear_iff (hnd : rids.Nodup) :
    AllClear tab clauses L rids ↔ ∀ front r back, rids = front ++ r :: back →
    ∀ old, L r = some old → RowClear tab clauses (updateRows clauses L front) old := by
  induction rids generalizing L with
  | nil => exact ⟨fun _ front r back h => by simp at h, fun _ => trivial⟩
  | cons r rids iht =>
      obtain ⟨hr, hnd⟩ := List.nodup_cons.1 hnd
      have hnone : updateRows clauses L [] = L := rfl
      rw [AllClear, iht hnd]
      constructor
      · rintro ⟨hfirst, hrest⟩ front q back hsplit old hq
        cases front with
        | nil =>
            cases hsplit
            rw [hnone]
            exact hfirst old hq
        | cons p front =>
            obtain ⟨rfl, hrids⟩ := List.cons.inj hsplit
            have hqr : q ≠ r := by
              rintro rfl
              exact hr (by rw [hrids]; simp)
            have hfront : r ∉ front := fun hc => hr (by rw [hrids]; simp [hc])
            have hclear :=
              hrest front q back hrids old (by rw [updateRows_of_notMem (by simpa using hqr)]; exact hq)
            rwa [updateRows_cons hfront] at hclear
      · intro hall
        refine ⟨fun old hrow => hnone ▸ hall [] r rids rfl old hrow, fun front q back hsplit old hq => ?_⟩
        have hqr : q ≠ r := by
          rintro rfl
          exact hr (by rw [hsplit]; simp)
        have hfront : r ∉ front := fun hc => hr (by rw [hsplit]; simp [hc])
        rw [updateRows_of_notMem (by simpa using hqr)] at hq
        rw [updateRows_cons hfront]
        exact hall (r :: front) q back (by rw [hsplit]; rfl) old hq

/-- Where the assignments keep the keys apart, the rows in the way are those still to be moved. -/
theorem allClear_iff_staggered (hnd : rids.Nodup) (hne : rids ≠ []) (hlive : ∀ r ∈ rids, L r ≠ none)
    (hfin : Uniq tab (updateRows clauses L rids)) :
    AllClear tab clauses L rids ↔ Staggered tab clauses L rids := by
  rw [allClear_iff hnd]
  constructor
  · intro hall
    obtain ⟨r, back, rfl⟩ := List.exists_cons_of_ne_nil hne
    obtain ⟨old, hold⟩ := Option.ne_none_iff_exists'.1 (hlive r List.mem_cons_self)
    refine ⟨(hall [] r back rfl old hold).1, fun i hi front p back hsplit old hp q hq row hrow => ?_⟩
    have hqf : q ∉ front := by
      rw [hsplit] at hnd
      exact fun hc => (List.nodup_append.1 hnd).2.2 q hc q hq rfl
    exact (hall front p back hsplit old hp).2 i hi q row (by rw [updateRows_of_notMem hqf]; exact hrow)
  · rintro ⟨hidx, hstag⟩ front r back hsplit old hold
    refine ⟨hidx, fun i hi q row hrow hkey => ?_⟩
    have hr : r ∈ rids := by rw [hsplit]; simp
    by_cases hqf : q ∈ front
    · -- the row has its final key already
      have hq : q ∈ rids := by rw [hsplit]; simp [hqf]
      obtain ⟨row', hrow'⟩ := Option.ne_none_iff_exists'.1 (hlive q hq)
      rw [updateRows_of_mem hqf hrow'] at hrow
      cases hrow
      have hqr := hfin i q r _ _ (updateRows_of_mem hq hrow') (updateRows_of_mem hr hold) hkey
      rw [hsplit] at hnd
      exact (List.nodup_append.1 hnd).2.2 q hqf r List.mem_cons_self hqr
    · rw [updateRows_of_notMem hqf] at hrow
      by_cases hqb : q ∈ r :: back
      · exact hstag i hi front r back hsplit old hold q hqb row hrow hkey
      · have hq : q ∉ rids := by
          rw [hsplit, List.mem_append, not_or]
          exact ⟨hqf, hqb⟩
        have hqr := hfin i q r _ _ ((updateRows_of_notMem hq).trans hrow) (updateRows_of_mem hr hold) hkey
        exact hq (hqr ▸ hr)

end Rows

variable [∀ i, IxKey (K i)] [∀ i, LinearOrder (K i)] [∀ i, LawfulIxKey (K i)] {tab : TabMeta n K}
  {clauses : List SetClause} {L : Rows} {s : TableState n K} {rids : List Rid}

/-- The statement goes through if every row is clear, and is refused else. -/
theorem updateNext_refused (h : Agrees tab L s) (hlive : ∀ r ∈ rids, L r ≠ none) :
    (∃ s', (updateNext tab clauses rids).run s = .error .transactionAbort s') ↔
      ¬ AllClear tab clauses L rids := by
  induction rids generalizing s L with
  | nil =>
      refine iff_of_false ?_ (not_not_intro trivial)
      rintro ⟨s', hrun⟩
      cases hrun
  | cons r rids iht =>
      obtain ⟨old, hr⟩ := Option.ne_none_iff_exists'.1 (hlive r List.mem_cons_self)
      obtain ⟨s', -, ⟨hA, hrun, hnd, hfree⟩ | ⟨-, hrun, i, hi, hwhy⟩⟩ := updateRow_spec clauses h hr
      · have hclear : ∀ old, L r = some old → RowClear tab clauses L old := by
          intro old' hr'
          rw [hr] at hr'
          cases hr'
          exact ⟨hnd, hfree⟩
        have hlive' : ∀ q ∈ rids, Function.update L r (some (setRecord clauses old)) q ≠ none := by
          intro q hq
          by_cases hqr : q = r
          · rw [hqr, Function.update_self]
            simp
          · rw [Function.update_of_ne hqr]
            exact hlive q (List.mem_cons_of_mem _ hq)
        rw [hrun, iht hA hlive', AllClear, updateRows_single hr, and_iff_right hclear]
      · refine iff_of_true ⟨s', hrun rids⟩ fun hclear => ?_
        obtain ⟨hnd, hfree⟩ := hclear.1 old hr
        rcases hwhy with ⟨hdup, -⟩ | ⟨-, q, row, hq, hkey⟩
        · exact hdup hnd
        · exact hfree i hi q row hq hkey

/-- An update is refused for a real duplicate only, exactly when there is one, nothing is selected, or the
rows can be moved one after the other. -/
theorem update_refused_iff (tab : TabMeta n K) (clauses : List SetClause)
    (s : TableState n K) (rids : List Rid) (h : Consistent tab s.rows s)
    (hlegal : DmlPlan.Legal (.update clauses rids) s) :
    ((∃ s', (updateNext tab clauses rids).run s = .error .transactionAbort s') →
      ¬ Uniq tab (updateRows clauses s.rows rids)) ↔
      ¬ Uniq tab (updateRows clauses s.rows rids) ∨ rids = [] ∨ Staggered tab clauses s.rows rids := by
  obtain ⟨hnd, hlive⟩ := hlegal
  by_cases hfin : Uniq tab (updateRows clauses s.rows rids)
  swap
  · exact iff_of_true (fun _ => hfin) (.inl hfin)
  cases rids with
  | nil =>
      refine iff_of_true ?_ (.inr (.inl rfl))
      rintro ⟨s', hrun⟩
      cases hrun
  | cons r rids =>
      have hA := h.agrees ⟨r, hlive r List.mem_cons_self⟩
      have hne : r :: rids ≠ [] := List.cons_ne_nil r rids
      rw [updateNext_refused hA hlive, allClear_iff_staggered hnd hne hlive hfin]
      simp [hfin]

section Example

theorem oneRow_live {q : Rid} {row : Row} (h : oneRow.rows q = some row) : q = ⟨1, 0⟩ ∧ row = idRow 1 := by
  have hrows : oneRow.rows = Function.update (fun _ => none) ⟨1, 0⟩ (some (idRow 1)) := by
    funext q
    by_cases hq : q = ⟨1, 0⟩
    · subst hq
      rfl
    · rw [Function.update_of_ne hq]
      have hbit : oneRow.bitmap = Function.update (fun _ => false) ⟨1, 0⟩ true := rfl
      rw [TableState.rows, hbit, Function.update_of_ne hq]
      rfl
  rw [hrows] at h
  by_cases hq : q = ⟨1, 0⟩
  · subst hq
    rw [Function.update_self] at h
    exact ⟨rfl, (Option.some.inj h).symm⟩
  · rw [Function.update_of_ne hq] at h
    cases h

theorem oneRow_uniq (clauses : List SetClause) : Uniq idTab (updateRows clauses oneRow.rows [⟨1, 0⟩]) := by
  have hlive : ∀ q row, updateRows clauses oneRow.rows [⟨1, 0⟩] q = some row → q = ⟨1, 0⟩ := by
    intro q row hq
    rw [updateRows] at hq
    split at hq
    · rename_i hmem
      exact List.mem_singleton.1 hmem
    · exact (oneRow_live hq).1
  intro i r r' row row' hr hr' _
  rw [hlive r row hr, hlive r' row' hr']

theorem update_refused_iff_moved : Staggered idTab [⟨"id", [2, 0, 0, 0]⟩] oneRow.rows [⟨1, 0⟩] ∧
    ((∃ s', (updateNext idTab [⟨"id", [2, 0, 0, 0]⟩] [⟨1, 0⟩]).run oneRow = .error .transactionAbort s') →
      ¬ Uniq idTab (updateRows [⟨"id", [2, 0, 0, 0]⟩] oneRow.rows [⟨1, 0⟩])) := by
  have hstag : Staggered idTab [⟨"id", [2, 0, 0, 0]⟩] oneRow.rows [⟨1, 0⟩] := by
    refine ⟨by decide, fun i _ front r back _ old hold q _ row hrow => ?_⟩
    rw [(oneRow_live hold).2, (oneRow_live hrow).2]
    revert i
    decide
  exact ⟨hstag, (update_refused_iff idTab _ oneRow _ oneRow_agrees.consistent ⟨by decide, by decide⟩).2
    (.inr (.inr hstag))⟩

/-- The only row is given the key that it has. -/
theorem own_key_refused : Consistent idTab oneRow.rows oneRow ∧
    DmlPlan.Legal (.update [⟨"id", [1, 0, 0, 0]⟩] [⟨1, 0⟩]) oneRow ∧
    (∃ s', (updateNext idTab [⟨"id", [1, 0, 0, 0]⟩] [⟨1, 0⟩]).run oneRow = .error .transactionAbort s') ∧
    Uniq idTab (updateRows [⟨"id", [1, 0, 0, 0]⟩] oneRow.rows [⟨1, 0⟩]) := by
  refine ⟨oneRow_agrees.consistent, ⟨by decide, by decide⟩, ?_, oneRow_uniq _⟩
  rw [updateNext_refused oneRow_agrees (by decide)]
  rintro ⟨hclear, -⟩
  exact (hclear (idRow 1) rfl).2 0 (by decide) ⟨1, 0⟩ (idRow 1) rfl (by decide)

end Example

end Rmdb
