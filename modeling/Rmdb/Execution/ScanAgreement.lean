import Rmdb.Execution.IndexScan
import Rmdb.Record.ScanCounts

namespace Rmdb

open Value ConditionCheck IxManager RmFileHandle IndexScanExecutor

/-- Both scans end without an exception, with the same rids. -/
def ScansAgree (tab : Table) {ix : IndexMeta} (ih : IxIndexHandle (Key ix.layout))
    (conds : List Condition) : Prop :=
  ∃ N, ∀ fuel, N ≤ fuel → ∃ rows rows', SeqScanExecutor.run tab conds fuel = .ok rows ∧
    IndexScanExecutor.run conds tab ih fuel = .ok rows' ∧ ∀ rid, rid ∈ rows'.map Prod.fst ↔
    rid ∈ rows.map Prod.fst

/-- No row lies above the upper end of the range and below the lower one, and no row that meets the
conditions lies above the upper end. -/
def RangeSound (tab : Table) (ix : IndexMeta) (conds : List Condition) : Prop :=
  ∃ lo hi, lowerKey ix conds = .ok lo ∧ upperKey ix conds = .ok hi ∧ ∀ row ∈ tab.rows,
    ¬ (endCode ix hi < rowCode ix row ∧ rowCode ix row < endCode ix lo) ∧
    ((∀ cond ∈ conds, cond.passes tab row.2 = true) → rowCode ix row ≤ endCode ix hi)

variable {tab : Table} {ix : IndexMeta} {ih : IxIndexHandle (Key ix.layout)} {conds : List Condition}
  {row row' : Rid × Bytes} {lo hi : Key ix.layout}

theorem rows_inj (h : RmInv tab.fh) (hrow : row ∈ tab.rows) (hrow' : row' ∈ tab.rows)
    (hrid : row.1 = row'.1) : row = row' := by
  have h1 := (mem_rows h).1 (show (row.1, row.2) ∈ tab.rows from hrow)
  have h2 := (mem_rows h).1 (show (row'.1, row'.2) ∈ tab.rows from hrow')
  rw [hrid, h2] at h1
  exact Prod.ext hrid (Option.some.inj h1).symm

/-- The rows that an index scan returns are those below the upper end that meet all conditions. -/
theorem in_range_iff (ht : IndexedTable tab ix ih) (hlit : ∀ cond ∈ conds, Literal tab cond)
    (hlo : lowerKey ix conds = .ok lo) (hhi : upperKey ix conds = .ok hi) (hrow : row ∈ tab.rows) :
    ((endCode ix lo ≤ rowCode ix row ∧ rowCode ix row ≤ endCode ix hi) ∧
        ∀ cond ∈ residual ix conds, cond.passes tab row.2 = true) ↔
      rowCode ix row ≤ endCode ix hi ∧ ∀ cond ∈ conds, cond.passes tab row.2 = true := by
  obtain ⟨lo', -, hlo', -, -, habove⟩ := lowerKey_spec ht hlit
  cases hlo.symm.trans hlo'
  obtain ⟨k, hk⟩ := exists_rowKey ht hrow
  have hboth : endCode ix lo ≤ rowCode ix row → rowCode ix row ≤ endCode ix hi →
      ((∀ cond ∈ conds, cond.passes tab row.2 = true) ↔
        ∀ cond ∈ residual ix conds, cond.passes tab row.2 = true) := by
    intro h1 h2
    rw [rowCode, ← hk] at h1 h2
    exact passes_of_between ht hlit hlo hhi hrow hk h1 h2
  constructor
  · rintro ⟨⟨h1, h2⟩, hres⟩
    exact ⟨h2, (hboth h1 h2).2 hres⟩
  · rintro ⟨h2, hpass⟩
    have h1 : endCode ix lo ≤ rowCode ix row := habove row hrow hpass
    exact ⟨⟨h1, h2⟩, (hboth h1 h2).1 hpass⟩

/-- With comparisons that cover their columns only a contradictory range with a row in it is not sound. -/
theorem rangeSound_of_covered (ht : IndexedTable tab ix ih) (hlit : ∀ cond ∈ conds, Literal tab cond)
    (hcov : Covered ix conds) (hlo : lowerKey ix conds = .ok lo) (hhi : upperKey ix conds = .ok hi)
    (hnone : ∀ row ∈ tab.rows, ¬ (endCode ix hi < rowCode ix row ∧ rowCode ix row < endCode ix lo)) :
    RangeSound tab ix conds := by
  obtain ⟨hi', -, hhi', -, -, hbelow⟩ := upperKey_spec ht hlit
  cases hhi.symm.trans hhi'
  exact ⟨lo, hi, hlo, hhi, fun row hrow => ⟨hnone row hrow, hbelow hcov row hrow⟩⟩

/-- An index scan agrees with a sequential scan exactly when the index has a root page and the range is
sound. -/
theorem index_scan_agrees_iff (tab : Table) (ix : IndexMeta) (ih : IxIndexHandle (Key ix.layout))
    (conds : List Condition) (ht : IndexedTable tab ix ih) (hlit : ∀ cond ∈ conds, Literal tab cond) :
    ScansAgree tab ih conds ↔ ih.fileHdr.rootPage ≠ -1 ∧ RangeSound tab ix conds := by
  obtain ⟨lo, -, hlo, -⟩ := lowerKey_spec ht hlit
  obtain ⟨hi, -, hhi, -⟩ := upperKey_spec ht hlit
  by_cases hroot : ih.fileHdr.rootPage = -1
  · refine iff_of_false ?_ fun h => h.1 hroot
    rintro ⟨N, hagree⟩
    obtain ⟨rows, rows', -, hrows', -⟩ := hagree N le_rfl
    exact run_rootless ht hroot N rows' hrows'
  rw [and_iff_right hroot]
  obtain ⟨hscan, hbreak⟩ := run_spec ht hlit hlo hhi hroot
  have hseq : ∀ fuel, tab.rows.length ≤ fuel → SeqScanExecutor.run tab conds fuel =
      .ok (tab.rows.filter fun row => conds.all fun cond => cond.passes tab row.2) :=
    fun fuel hf => SeqScanExecutor.run_spec ht.file hlit hf
  constructor
  · rintro ⟨N, hagree⟩
    have hnone : ∀ row ∈ tab.rows, ¬ (endCode ix hi < rowCode ix row ∧ rowCode ix row < endCode ix lo) := by
      intro row hrow hc
      obtain ⟨rows, rows', -, hrows', -⟩ := hagree N le_rfl
      exact hbreak ⟨row, hrow, hc⟩ _ _ hrows'
    refine ⟨lo, hi, hlo, hhi, fun row hrow => ⟨hnone row hrow, fun hpass => ?_⟩⟩
    obtain ⟨M, found, hrun, -, hfound⟩ := hscan hnone
    obtain ⟨rows, rows', hrows, hrows', hsame⟩ := hagree (max N (max M tab.rows.length)) (le_max_left _ _)
    rw [hseq _ (by omega)] at hrows
    rw [hrun _ (by omega)] at hrows'
    cases hrows
    cases hrows'
    have hin : row.1 ∈ found.map Prod.fst :=
      (hsame row.1).2 (List.mem_map.2 ⟨row, List.mem_filter.2 ⟨hrow, by simpa using hpass⟩, rfl⟩)
    obtain ⟨row', hrow', hrid⟩ := List.mem_map.1 hin
    obtain ⟨hmem, hrange, -⟩ := (hfound row').1 hrow'
    rw [← rows_inj ht.file hmem hrow hrid]
    exact hrange.2
  · rintro ⟨lo', hi', hlo', hhi', hsound⟩
    cases hlo.symm.trans hlo'
    cases hhi.symm.trans hhi'
    obtain ⟨N, rows', hrun, -, hmem⟩ := hscan fun row hrow => (hsound row hrow).1
    refine ⟨max N tab.rows.length, fun fuel hf => ⟨_, rows', hseq fuel (by omega),
      hrun fuel (by omega), fun rid => ?_⟩⟩
    have hrows : ∀ row, row ∈ rows' ↔
        row ∈ tab.rows.filter fun row => conds.all fun cond => cond.passes tab row.2 := by
      intro row
      rw [hmem, List.mem_filter, List.all_eq_true]
      refine and_congr_right fun hrow => ?_
      rw [in_range_iff ht hlit hlo hhi hrow]
      exact ⟨And.right, fun hpass => ⟨(hsound row hrow).2 hpass, hpass⟩⟩
    simp only [List.mem_map, hrows]

section OneRow

def tableA : Table where
  tabName := "t"
  cols := [⟨"t", "a", .int, 4, 0⟩]
  fh := ((RmManager.openFile ⟨⟨4, 1, 987, rmNoPage, 124⟩, fun _ => none⟩).insertRecord [5, 0, 0, 0]).2

def indexA : IndexMeta := ⟨[⟨"t", "a", .int, 4, 0⟩], by simp, by decide⟩

def keyA : Key indexA.layout := ⟨[5, 0, 0, 0], rfl⟩

def handleA : IxIndexHandle (Key indexA.layout) :=
  match (createIndex indexA.layout).insertEntry keyA ⟨1, 0⟩ with
  | .ok (_, _, ih) => ih
  | .error _ => createIndex indexA.layout

theorem inv_emptyA : RmInv (RmManager.openFile ⟨⟨4, 1, 987, rmNoPage, 124⟩, fun _ => none⟩) :=
  openFile_inv (show RmManager.createFile 4 = .ok _ from rfl)

theorem rows_tableA : tableA.rows = [(⟨1, 0⟩, [5, 0, 0, 0])] := by
  have hrids : tableA.fh.rids = [⟨1, 0⟩] := rids_insertRecord inv_emptyA rfl rfl nofun
  have hentry : tableA.fh.entry ⟨1, 0⟩ = some [5, 0, 0, 0] :=
    (congrFun (entry_insertRecord inv_emptyA rfl rfl) _).trans (Function.update_self ..)
  rw [Table.rows, hrids, List.map_singleton, hentry]
  rfl

theorem indexed_tableA : IndexedTable tableA indexA handleA where
  file := inv_insertRecord inv_emptyA rfl
  found := by decide
  inside := by decide
  padded := by
    intro c hc hs
    obtain rfl : c = ⟨"t", "a", .int, 4, 0⟩ := by simpa [indexA] using hc
    cases hs
  consistent := by
    obtain ⟨ih, hrun, hsim⟩ := step_sim (.insert keyA ⟨1, 0⟩) (createIndex_sim indexA.layout) trivial
      (fun hc => hc.1.elim fun _ hk => hk rfl)
    have heq : handleA = ih := by
      rw [handleA]
      simp only [IxOp.exec] at hrun
      cases hins : (createIndex indexA.layout).insertEntry keyA ⟨1, 0⟩ with
      | error e => rw [hins] at hrun; cases hrun
      | ok x =>
          obtain ⟨leaf, success, ih'⟩ := x
          rw [hins] at hrun
          simpa [bind, Except.bind, pure, Except.pure] using (Prod.mk.inj (Except.ok.inj hrun)).2
    refine .inl ⟨Function.update IxMap.empty keyA (some ⟨1, 0⟩), heq ▸ hsim, fun k r => ?_⟩
    have hkey : indexA.rowKey [5, 0, 0, 0] = keyA.1 := rfl
    rw [rows_tableA]
    simp only [List.mem_singleton, Prod.mk.injEq]
    by_cases hk : k = keyA
    · rw [hk, Function.update_self]
      constructor
      · rintro h
        cases h
        exact ⟨_, ⟨rfl, rfl⟩, rfl⟩
      · rintro ⟨record, ⟨rfl, rfl⟩, -⟩
        rfl
    · rw [Function.update_of_ne hk]
      refine ⟨fun h => (by cases h), ?_⟩
      rintro ⟨record, ⟨rfl, rfl⟩, h⟩
      exact absurd (Subtype.ext (h.trans hkey)) hk

theorem root_handleA : handleA.fileHdr.rootPage ≠ -1 := by decide +kernel

def between (lower upper : Int32) : List Condition :=
  [⟨⟨"t", "a"⟩, .ge, .val (.int lower)⟩, ⟨⟨"t", "a"⟩, .le, .val (.int upper)⟩]

theorem literal_between (lower upper : Int32) : ∀ cond ∈ between lower upper, Literal tableA cond := by
  intro cond hcond
  simp only [between, List.mem_cons, List.not_mem_nil, or_false] at hcond
  rcases hcond with rfl | rfl
  all_goals exact ⟨rfl, _, _, rfl, rfl, .inl rfl⟩

theorem index_scan_agrees_iff_between :
    IndexedTable tableA indexA handleA ∧ (∀ cond ∈ between 3 7, Literal tableA cond) ∧
    (handleA.fileHdr.rootPage ≠ -1 ∧ RangeSound tableA indexA (between 3 7)) ∧
    ScansAgree tableA handleA (between 3 7) := by
  have hsound : RangeSound tableA indexA (between 3 7) := by
    refine ⟨⟨intBytes 3, rfl⟩, ⟨intBytes 7, rfl⟩, rfl, rfl, ?_⟩
    rw [rows_tableA]
    decide +kernel
  exact ⟨indexed_tableA, literal_between 3 7, ⟨root_handleA, hsound⟩,
    (index_scan_agrees_iff tableA indexA handleA _ indexed_tableA (literal_between 3 7)).2
      ⟨root_handleA, hsound⟩⟩

theorem lower_seven : lowerKey indexA (between 7 3) = .ok ⟨intBytes 7, rfl⟩ := rfl

theorem upper_three : upperKey indexA (between 7 3) = .ok ⟨intBytes 3, rfl⟩ := rfl

/-- `a >= 7 AND a <= 3`: the scan starts behind its end, at the entry of the row, and runs out of the leaf. -/
theorem contradictory_range_throws :
    IndexedTable tableA indexA handleA ∧ (∀ cond ∈ between 7 3, Literal tableA cond) ∧
    (∀ fuel, 1 ≤ fuel → SeqScanExecutor.run tableA (between 7 3) fuel = .ok []) ∧
    (∀ fuel rows, IndexScanExecutor.run (between 7 3) tableA handleA fuel ≠ .ok rows) ∧
    ¬ ScansAgree tableA handleA (between 7 3) := by
  have hthrow : ∀ fuel rows, IndexScanExecutor.run (between 7 3) tableA handleA fuel ≠ .ok rows := by
    refine (IndexScanExecutor.run_spec indexed_tableA
      (literal_between 7 3) lower_seven upper_three root_handleA).2 ?_
    rw [rows_tableA]
    decide +kernel
  refine ⟨indexed_tableA, literal_between 7 3, fun fuel hf => ?_, hthrow, ?_⟩
  · rw [SeqScanExecutor.run_spec indexed_tableA.file (literal_between 7 3)
      (by rw [rows_tableA]; exact hf), rows_tableA]
    decide +kernel
  · rintro ⟨N, hagree⟩
    obtain ⟨rows, rows', -, hrows', -⟩ := hagree N le_rfl
    exact hthrow N rows' hrows'

end OneRow

end Rmdb
