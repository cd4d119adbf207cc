import Rmdb.Execution.FailedInsert
import Rmdb.Transaction.LockHolders
import Rmdb.Transaction.TableServer

namespace Rmdb

open LockState LockRequestQueue

variable {n : Nat} {K : Fin n → Type} [∀ i, IxKey (K i)]

section Model

variable (tab : TabMeta n K) (fd : Int) (perPage : Nat)

def afterAll (sts : List DmlPlan) (c : TableState n K) : TableState n K :=
  sts.foldl (fun c st => (st.after tab c).2) c

def ScanPhase.rows : ScanPhase n K → List (Rid × Row)
  | .closed | .lowered _ _ => []
  | .standing _ _ rows _ | .reading _ _ rows _ _ | .passing _ _ rows => rows

namespace TableServer

variable (s : TableServer n K)

def UpToDate (txn : TxnId) (scan : Nat) : Prop :=
  match s.scans (txn, scan) with
  | .reading plan pos _ false rid =>
      plan.start (s.slots perPage) s.table = .ok pos ∧ (s.cursor perPage).get pos = .ok rid
  | _ => True

/-- The position that a scan has found without a lock is up to date when the lock is there, or,
where it is the end, when the scan is over, and then no other transaction has written; and a
statement is a safe one. -/
def Guard (s : TableServer n K) : ServerAction n K → Prop
  | .getRecord txn scan => (s.locks.lockSharedOnTable txn fd).1 = .returned → s.UpToDate perPage txn scan
  | .finish txn scan =>
      match s.scans (txn, scan) with
      | .standing plan pos _ false =>
          plan.start (s.slots perPage) s.table = .ok pos ∧ ∀ other, other ≠ txn → s.writes other = []
      | _ => True
  | .statement txn st => st.asksLock = true → (s.locks.lockExclusiveOnTable txn fd).1 = .returned →
      st.Legal s.table ∧ st.Safe s.table
  | .wake txn =>
      match s.threads txn with
      | .locking scan => s.UpToDate perPage txn scan
      | .blocked st => st.Legal s.table ∧ st.Safe s.table
      | _ => True
  | _ => True

end TableServer

variable [∀ i, LinearOrder (K i)]

def OwnView (committed : Rows) (own : List DmlPlan) (L : Rows) : Prop :=
  ∃ c, Consistent tab committed c ∧ c.writeSet = [] ∧ (afterAll tab own c).rows = L

/-- A scan has returned the rows that its plan asks for, of the committed rows and the own writes. -/
def ScanResult.Clean (res : ScanResult n K) : Prop :=
  ∃ L, OwnView tab res.committed res.own L ∧ ∀ r row, (r, row) ∈ res.rows ↔
    L r = some row ∧ res.plan.Wants tab row

variable {tab} in
theorem ScanResult.Clean.mem_rows {res : ScanResult n K} (h : res.Clean tab) (hown : res.own = []) (r : Rid)
    (row : Row) : (r, row) ∈ res.rows ↔ res.committed r = some row ∧ res.plan.Wants tab row := by
  obtain ⟨L, ⟨c, hC, -, hL⟩, hiff⟩ := h
  have hcommitted : L = res.committed := by
    rw [← hL, hown]
    exact hC.rows
  rw [hiff, hcommitted]

/-- No scan has returned a row that is not there, nor missed one that is. -/
structure NoDirtyRead (s : TableServer n K) : Prop where
  current : ∀ txn scan, ∀ row ∈ (s.scans (txn, scan)).rows, ∃ L, OwnView tab s.committed (s.own txn) L ∧
    L row.1 = some row.2
  results : ∀ res ∈ s.results, res.Clean tab

end Model

section Invariant

variable (tab : TabMeta n K) (fd : Int) (perPage : Nat)

namespace ScanPhase

variable (slots : List Rid) (table : TableState n K) (held : Prop)

def Reads (plan : ScanQuery n K) (pos : OpenScan n) (rows : List (Rid × Row)) : Prop :=
  held ∧ ∃ start rids, plan.start slots table = .ok start ∧
    (OpenScan.cursor slots table).Seen start rids pos ∧
    rows = takenRows table plan.conds rids

def Ok : ScanPhase n K → Prop
  | .closed | .lowered _ _ => True
  | .standing _ _ rows false => rows = []
  | .standing plan pos rows true => Reads slots table held plan pos rows
  | .reading _ pos rows false _ => rows = [] ∧ (OpenScan.cursor slots table).isEnd pos = false
  | .reading plan pos rows true rid => Reads slots table held plan pos rows ∧
      (OpenScan.cursor slots table).isEnd pos = false ∧ (OpenScan.cursor slots table).get pos = .ok rid
  | .passing plan pos rows =>
      ∃ rid read, Reads slots table held plan pos read ∧ (OpenScan.cursor slots table).isEnd pos = false ∧
      (OpenScan.cursor slots table).get pos = .ok rid ∧
      rows = if plan.conds (table.slots rid) then read ++ [(rid, table.slots rid)] else read

variable {slots table held} {slots' : List Rid} {table' : TableState n K} {held' : Prop}
  {phase : ScanPhase n K}

theorem Reads.mono {plan : ScanQuery n K} {pos : OpenScan n} {rows : List (Rid × Row)}
    (h : Reads slots table held plan pos rows) (hsame : SameScans slots slots' table table')
    (hheld : held → held') : Reads slots' table' held' plan pos rows := by
  obtain ⟨hh, start, rids, hstart, hseen, rfl⟩ := h
  refine ⟨hheld hh, start, rids, (hsame.start plan).trans hstart, ?_, ?_⟩
  · rw [hsame.cursor]
    exact hseen
  · rw [takenRows, takenRows, hsame.records]

theorem Ok.mono (h : phase.Ok slots table held) (hsame : SameScans slots slots' table table')
    (hheld : held → held') :
    phase.Ok slots' table' held' := by
  cases phase with
  | closed | lowered => trivial
  | standing plan pos rows begun =>
      cases begun with
      | false => exact h
      | true => exact Reads.mono h hsame hheld
  | reading plan pos rows begun rid =>
      cases begun with
      | false =>
          rw [Ok, hsame.cursor]
          exact h
      | true =>
          rw [Ok, hsame.cursor]
          exact ⟨h.1.mono hsame hheld, h.2⟩
  | passing plan pos rows =>
      obtain ⟨rid, read, hread, hpos, hrows⟩ := h
      rw [Ok, hsame.cursor, hsame.records]
      exact ⟨rid, read, hread.mono hsame hheld, hpos, hrows⟩

/-- A scan without the lock has read nothing, and does not mind a change. -/
theorem Ok.of_not_held (h : phase.Ok slots table held) (hheld : ¬ held) : phase.Ok slots' table' held' := by
  cases phase with
  | closed | lowered => trivial
  | standing plan pos rows begun =>
      cases begun with
      | false => exact h
      | true => exact absurd h.1 hheld
  | reading plan pos rows begun rid =>
      cases begun with
      | false =>
          refine ⟨h.1, ?_⟩
          cases pos <;> exact h.2
      | true => exact absurd h.1.1 hheld
  | passing plan pos rows =>
      obtain ⟨rid, read, hread, -⟩ := h
      exact absurd hread.1 hheld

end ScanPhase

namespace TableServer

variable (s : TableServer n K)

abbrev Held (txn : TxnId) : Prop := .table fd ∈ s.locks.lockSet txn

abbrev HeldX (txn : TxnId) : Prop := (s.locks.getLockRequestQueue (.table fd)).HoldsX txn

def ThreadOk (txn : TxnId) : Prop :=
  match s.threads txn with
  | .running | .dying | .ended => s.locks.waiting txn = none
  | .locking _ => s.locks.waiting txn = some (.request (.table fd) .shared)
  | .blocked _ => s.locks.waiting txn = some (.request (.table fd) .exlucsive) ∨
      s.locks.waiting txn = some (.upgrade (.table fd) .exlucsive)

variable [∀ i, LinearOrder (K i)]

structure Whole (txn : TxnId) : Prop where
  view : ∃ c, Consistent tab s.committed c ∧ c.writeSet = [] ∧
    afterAll tab (s.own txn) c = { s.table with writeSet := s.writes txn }
  rolls : Rolls tab s.committed (s.writes txn) s.table.rows
  consistent : Consistent tab s.table.rows s.table

/-- The last update of `txn` has stopped half way, and its abort follows. -/
structure Halfway (txn : TxnId) : Prop where
  dying : s.threads txn = .dying
  closed : ∀ scan, s.scans (txn, scan) = .closed
  own : s.own txn ≠ []
  half : ∃ L W r old new, s.writes txn = .updateTuple r old :: W ∧ Rolls tab s.committed W L ∧ Other n L r ∧
    Half tab L r old new s.table

structure Inv : Prop where
  locks : LockInv s.locks
  threads : ∀ txn, s.ThreadOk fd txn
  sole : ∀ txn, s.own txn ≠ [] → s.HeldX fd txn
  blank : ∀ txn, s.own txn = [] → s.writes txn = []
  pages : 1 ≤ s.numPages
  file : ∀ r, s.table.bitmap r = true → r ∈ s.slots perPage
  committed : ∀ r, s.committed r ≠ none → r ∈ s.slots perPage
  content : ∃ txn, (∀ other, other ≠ txn → s.own other = []) ∧ (s.Whole tab txn ∨ s.Halfway tab txn)
  scans : ∀ txn scan, (s.scans (txn, scan)).Ok (s.slots perPage) s.table (s.Held fd txn)
  results : ∀ res ∈ s.results, res.Clean tab

end TableServer

end Invariant

namespace TableServer

variable [∀ i, LinearOrder (K i)] {tab : TabMeta n K} {fd : Int} {perPage : Nat} {s s' : TableServer n K}
  {txn other : TxnId} {scan : Nat} {locks : LockState} {table : TableState n K} {committed : Rows}

omit [∀ i, IxKey (K i)] [∀ i, LinearOrder (K i)] in
theorem ThreadOk.congr (h : s.ThreadOk fd other) (hthread : s'.threads other = s.threads other)
    (hwait : s'.locks.waiting other = s.locks.waiting other) : s'.ThreadOk fd other := by
  unfold ThreadOk
  rw [hthread, hwait]
  exact h

section Content

theorem whole_of_blank (h : Consistent tab s.committed s.table) (hown : s.own txn = [])
    (hws : s.writes txn = []) :
    s.Whole tab txn where
  view := ⟨{ s.table with writeSet := [] }, h.commit, rfl, by rw [hown, hws]; rfl⟩
  rolls := by
    rw [hws, h.rows]
    exact .start
  consistent := h.self

theorem Whole.blank (h : s.Whole tab txn) (hws : s.writes txn = []) : Consistent tab s.committed s.table := by
  have hrolls := h.rolls
  have hC := h.consistent
  rw [hws] at hrolls
  generalize s.table.rows = L at hrolls hC
  cases hrolls
  exact hC

theorem Whole.ownView (h : s.Whole tab txn) : OwnView tab s.committed (s.own txn) s.table.rows := by
  obtain ⟨c, hC, hws, hc⟩ := h.view
  exact ⟨c, hC, hws, by rw [hc]; rfl⟩

variable (h : s.Inv tab fd perPage)

include h

theorem Inv.whole (hquiet : ∀ other, other ≠ txn → s.writes other = []) (hnot : ¬ s.Halfway tab txn) :
    s.Whole tab txn := by
  obtain ⟨writer, hothers, hwhole | hhalf⟩ := h.content
  · by_cases hw : writer = txn
    · rwa [hw] at hwhole
    · have hown := hothers txn fun hc => hw hc.symm
      exact whole_of_blank (hwhole.blank (hquiet writer hw)) hown (h.blank txn hown)
  · by_cases hw : writer = txn
    · rw [hw] at hhalf
      exact absurd hhalf hnot
    · obtain ⟨L, W, r, old, new, hws, -⟩ := hhalf.half
      rw [hquiet writer hw] at hws
      cases hws

theorem Inv.others_of_held (hheld : s.Held fd txn) (ho : other ≠ txn) : s.own other = [] := by
  by_contra hown
  exact ho (h.locks.alone (h.sole other hown) hheld).symm

theorem Inv.others_of_own (hown : s.own txn ≠ []) (ho : other ≠ txn) : s.own other = [] := by
  by_contra hother
  exact ho (h.locks.holdsX_unique (h.sole txn hown) (h.sole other hother))

theorem Inv.whole_of_held (hheld : s.Held fd txn) (hnot : ¬ s.Halfway tab txn) : s.Whole tab txn :=
  h.whole (fun _ ho => h.blank _ (h.others_of_held hheld ho)) hnot

end Content

section Property

variable [∀ i, LawfulIxKey (K i)] (h : s.Inv tab fd perPage)

include h

theorem Inv.reads_live {plan : ScanQuery n K} {pos : OpenScan n} {rows : List (Rid × Row)} {held : Prop}
    (hC : Consistent tab s.table.rows s.table)
    (hr : ScanPhase.Reads (s.slots perPage) s.table held plan pos rows) :
    (∀ row ∈ rows, s.table.rows row.1 = some row.2) ∧ ∀ rid, (s.cursor perPage).get pos = .ok rid →
      s.table.rows rid ≠ none := by
  obtain ⟨-, start, rids, hstart, hseen, rfl⟩ := hr
  refine ⟨?_, fun rid hget => ScanQuery.seen_get hC (s.slots_before perPage) hstart hseen hget⟩
  exact takenRows_live rfl (ScanQuery.seen_spec hC h.file (s.slots_before perPage) hstart hseen).1

theorem Inv.current (txn : TxnId) (scan : Nat) : ∀ row ∈ (s.scans (txn, scan)).rows,
    ∃ L, OwnView tab s.committed (s.own txn) L ∧ L row.1 = some row.2 := by
  intro row hrow
  have hok := h.scans txn scan
  have hopen : s.scans (txn, scan) ≠ .closed := by
    intro hc
    rw [hc] at hrow
    cases hrow
  have hwhole : s.Held fd txn →
    s.Whole tab txn := fun hheld => h.whole_of_held hheld fun hhalf => hopen (hhalf.closed scan)
  cases hphase : s.scans (txn, scan) with
  | closed | lowered =>
      rw [hphase] at hrow
      cases hrow
  | standing plan pos rows begun =>
      rw [hphase] at hrow hok
      cases begun with
      | false =>
          change row ∈ rows at hrow
          rw [show rows = [] from hok] at hrow
          cases hrow
      | true =>
          have hw := hwhole hok.1
          exact ⟨_, hw.ownView, (h.reads_live hw.consistent hok).1 row hrow⟩
  | reading plan pos rows begun rid =>
      rw [hphase] at hrow hok
      cases begun with
      | false =>
          change row ∈ rows at hrow
          rw [show rows = [] from hok.1] at hrow
          cases hrow
      | true =>
          have hw := hwhole hok.1.1
          exact ⟨_, hw.ownView, (h.reads_live hw.consistent hok.1).1 row hrow⟩
  | passing plan pos rows =>
      rw [hphase] at hrow hok
      obtain ⟨rid, read, hread, -, hget, hrows⟩ := hok
      have hw := hwhole hread.1
      obtain ⟨hlive, hrid⟩ := h.reads_live hw.consistent hread
      refine ⟨_, hw.ownView, ?_⟩
      change row ∈ rows at hrow
      rw [hrows] at hrow
      split at hrow
      · rcases List.mem_append.1 hrow with hrow | hrow
        · exact hlive row hrow
        · rw [List.mem_singleton.1 hrow]
          obtain ⟨record, hL⟩ := Option.ne_none_iff_exists'.1 (hrid rid hget)
          rw [hL, slot_eq rfl hL]
      · exact hlive row hrow

theorem Inv.noDirtyRead : NoDirtyRead tab s := ⟨h.current, h.results⟩

theorem Inv.clean {plan : ScanQuery n K} {pos : OpenScan n} {rows : List (Rid × Row)} {held : Prop}
    (hw : s.Whole tab txn) (hr : ScanPhase.Reads (s.slots perPage) s.table held plan pos rows)
    (hend : (s.cursor perPage).isEnd pos = true) :
    ScanResult.Clean tab ⟨txn, plan, rows, s.committed, s.own txn⟩ := by
  obtain ⟨-, start, rids, hstart, hseen, rfl⟩ := hr
  exact ⟨_, hw.ownView,
    ScanQuery.takenRows_spec hw.consistent h.file (s.slots_before perPage) hstart hseen hend⟩

end Property

section Scans

variable {phase : ScanPhase n K} {thread : TxnThread}

theorem Inv.setScan (h : s.Inv tab fd perPage) (hrun : s.threads txn = .running)
    (hok : phase.Ok (s.slots perPage) s.table (s.Held fd txn)) :
    (s.setScan txn scan phase).Inv tab fd perPage where
  locks := h.locks
  threads := h.threads
  sole := h.sole
  blank := h.blank
  pages := h.pages
  file := h.file
  committed := h.committed
  content := by
    obtain ⟨writer, hothers, hwhole | hhalf⟩ := h.content
    · exact ⟨writer, hothers, .inl ⟨hwhole.view, hwhole.rolls, hwhole.consistent⟩⟩
    · refine ⟨writer, hothers, .inr ⟨hhalf.dying, fun other => ?_, hhalf.own, hhalf.half⟩⟩
      have hne : writer ≠ txn := by
        rintro rfl
        cases hrun.symm.trans hhalf.dying
      rw [setScan_of_ne fun hc => hne (Prod.mk.inj hc).1]
      exact hhalf.closed other
  scans u e := by
    by_cases hx : (u, e) = (txn, scan)
    · obtain ⟨rfl, rfl⟩ := Prod.mk.inj hx
      rw [setScan_self]
      exact hok
    · rw [setScan_of_ne hx]
      exact h.scans u e
  results := h.results

theorem Inv.setThread (h : s.Inv tab fd perPage) (hnot : s.threads txn ≠ .dying)
    (hlocks : Acquires s.locks locks txn (.table fd))
    (hthread : (s.setThread txn locks thread).ThreadOk fd txn) :
    (s.setThread txn locks thread).Inv tab fd perPage where
  locks := hlocks.inv
  threads u := by
    by_cases hu : u = txn
    · rw [hu]
      exact hthread
    · exact (h.threads u).congr (setThread_of_ne hu) (hlocks.waiting u hu)
  sole u hown := hlocks.heldX u (h.sole u hown)
  blank := h.blank
  pages := h.pages
  file := h.file
  committed := h.committed
  content := by
    obtain ⟨writer, hothers, hwhole | hhalf⟩ := h.content
    · exact ⟨writer, hothers, .inl ⟨hwhole.view, hwhole.rolls, hwhole.consistent⟩⟩
    · have hne : writer ≠ txn := by
        rintro rfl
        exact hnot hhalf.dying
      refine ⟨writer, hothers, .inr ⟨?_, hhalf.closed, hhalf.own, hhalf.half⟩⟩
      rw [setThread_of_ne hne]
      exact hhalf.dying
  scans u e := by
    refine (h.scans u e).mono ⟨fun _ => rfl, rfl, rfl⟩ fun hu => ?_
    by_cases hut : u = txn
    · rw [hut] at hu ⊢
      exact hlocks.held hu
    · change _ ∈ locks.lockSet u
      rw [hlocks.lockSet u hut]
      exact hu
  results := h.results

theorem Inv.takeRecord (h : s.Inv tab fd perPage) (hnot : s.threads txn ≠ .dying)
    (hguard : s.UpToDate perPage txn scan) (hlocks : Acquires s.locks locks txn (.table fd))
    (hgranted : .table fd ∈ locks.lockSet txn) (hawake : locks.waiting txn = none)
    (hs : s.takeRecord txn scan locks = some s') : s'.Inv tab fd perPage := by
  have hthread : (s.setThread txn locks .running).threads txn = .running := setThread_self
  have hlocked : (s.setThread txn locks .running).Inv tab fd perPage := by
    refine h.setThread hnot hlocks ?_
    unfold ThreadOk
    rw [hthread]
    exact hawake
  have hok := h.scans txn scan
  unfold TableServer.takeRecord at hs
  unfold UpToDate at hguard
  cases hphase : s.scans (txn, scan) with
  | closed | lowered | standing | passing =>
      rw [hphase] at hs
      cases hs
  | reading plan pos rows begun rid =>
      rw [hphase] at hs hok hguard
      cases hs
      refine hlocked.setScan hthread ?_
      cases begun with
      | false =>
          obtain ⟨rfl, hend⟩ := hok
          exact ⟨rid, [], ⟨hgranted, pos, [], hguard.1, .start, rfl⟩, hend, hguard.2, rfl⟩
      | true =>
          obtain ⟨hread, hend, hget⟩ := hok
          exact ⟨rid, rows, hread.mono ⟨fun _ => rfl, rfl, rfl⟩ fun _ => hgranted, hend, hget, rfl⟩

end Scans

section Change

variable {st : DmlPlan} {c : TableState n K} {L L₀ : Rows}

omit [∀ i, LinearOrder (K i)] in
theorem after_bitmap (st : DmlPlan) {q : Rid} (h : LeavesBit q (st.exec tab)) :
    (st.after tab c).2.bitmap q = c.bitmap q := by
  have hq := h c
  rw [DmlPlan.after]
  cases hrun : (st.exec tab).run c with
  | ok a c' =>
      rw [hrun] at hq
      exact hq
  | error e c' =>
      rw [hrun] at hq
      cases e <;> exact hq

omit [∀ i, LinearOrder (K i)] in
theorem after_file (hlegal : st.Legal c) {q : Rid} (hq : (st.after tab c).2.bitmap q = true) :
    c.bitmap q = true ∨ q ∈ st.freeRecords := by
  refine Classical.or_iff_not_imp_right.2 fun hfree => ?_
  cases st with
  | insert values =>
      rwa [← after_bitmap (.insert values)
        (LeavesBit.insertNext fun v hv hc => hfree (List.mem_map.2 ⟨v, hv, hc⟩))]
  | update clauses rids => rwa [← after_bitmap (.update clauses rids) (LeavesBit.updateNext clauses rids)]
  | delete rids =>
      by_cases hmem : q ∈ rids
      · exact (bitmap_iff rfl).2 (hlegal.2 q hmem)
      · rwa [← after_bitmap (.delete rids) (LeavesBit.deleteNext hmem)]

variable [∀ i, LawfulIxKey (K i)]

/-- A safe statement goes through, or it is an update that stops half way. -/
theorem after_consistent (hC : Consistent tab L c) (hR : Rolls tab L₀ c.writeSet L) (hlegal : st.Legal c)
    (hsafe : st.Safe c) :
    (∃ c', st.after tab c = (true, c') ∧ Consistent tab c'.rows c' ∧ Rolls tab L₀ c'.writeSet c'.rows) ∨
    (∃ L' W r old new c', st.after tab c = (false, c') ∧ c'.writeSet = .updateTuple r old :: W ∧
      Rolls tab L₀ W L' ∧
      Other n L' r ∧ Half tab L' r old new c') := by
  by_cases hA : Agrees tab L c
  · rcases st.after_safe keptBy_rolls hA hR hlegal hsafe with
      ⟨L', c', hst, hA', hR'⟩ | ⟨L', W, r, old, new, c', hst, hws, hR', hother, hhalf⟩
    · rw [← hA'.rows] at hR'
      exact .inl ⟨c', hst, hA'.consistent.self, hR'⟩
    · exact .inr ⟨L', W, r, old, new, c', hst, hws, hR', hother, hhalf⟩
  · obtain ⟨hnone, hem⟩ := hC.index.resolve_left fun hix => hA ⟨hC.rows, hix⟩
    have hn : n ≠ 0 := by
      rintro rfl
      exact hA ⟨hC.rows, fun i => i.elim0⟩
    rcases after_emptied tab hn hem (by rw [hC.rows]; exact hnone) hlegal with ⟨-, hst⟩ | ⟨hnot, -⟩
    · exact .inl ⟨c, hst, hC.self, by rw [hC.rows]; exact hR⟩
    · exact absurd hsafe hnot

theorem abort_consistent (hC : Consistent tab L c) (hR : Rolls tab L₀ c.writeSet L) :
    ∃ c', (Exec.abort tab).run c = .ok () c' ∧ Consistent tab L₀ c' := by
  by_cases hA : Agrees tab L c
  · obtain ⟨c', hC', hrun⟩ := undoWrites_spec hR hA []
    rw [List.append_nil] at hrun
    exact ⟨c', by rw [abort_eq rfl, hrun]; rfl, hC'⟩
  · obtain ⟨hnone, -⟩ := hC.index.resolve_left fun hix => hA ⟨hC.rows, hix⟩
    have hn : n ≠ 0 := by
      rintro rfl
      exact hA ⟨hC.rows, fun i => i.elim0⟩
    have hws : c.writeSet = [] := (hR.live hn).resolve_left fun ⟨q, hq⟩ => hq (hnone q)
    rw [hws] at hR
    cases hR
    exact ⟨c, by rw [abort_eq hws]; rfl, hC⟩

theorem abort_half {W : List WriteRecord} {r : Rid} {old new : Row}
    (hws : c.writeSet = .updateTuple r old :: W) (hR : Rolls tab L₀ W L) (hother : Other n L r)
    (hhalf : Half tab L r old new c) :
    ∃ c', (Exec.abort tab).run c = .ok () c' ∧ Consistent tab L₀ c' := by
  obtain ⟨c₁, hA, hrun₁⟩ := undoWrites_half (W := W) hhalf hother
  obtain ⟨c', hC', hrun⟩ := undoWrites_spec hR hA []
  rw [List.append_nil] at hrun
  exact ⟨c', by rw [abort_eq hws, hrun₁, hrun]; rfl, hC'⟩

end Change

section Steps

variable [∀ i, LawfulIxKey (K i)] {st : DmlPlan} (h : s.Inv tab fd perPage)

include h

theorem Inv.execute (hnot : s.threads txn ≠ .dying) (hlegal : st.Legal s.table) (hsafe : st.Safe s.table)
    (hlocks : Acquires s.locks locks txn (.table fd))
    (hmine : (locks.getLockRequestQueue (.table fd)).HoldsX txn) (hawake : locks.waiting txn = none)
    (hs : s.execute tab perPage txn locks st = some s') : s'.Inv tab fd perPage := by
  have hothers : ∀ u, u ≠ txn → s.own u = [] := by
    intro u hu
    by_contra hown
    exact hu (hlocks.inv.holdsX_unique hmine (hlocks.heldX u (h.sole u hown)))
  have hw : s.Whole tab txn := h.whole (fun u hu => h.blank u (hothers u hu)) fun hhalf => hnot hhalf.dying
  have hlegal' : st.Legal { s.table with writeSet := s.writes txn } := by cases st <;> exact hlegal
  have hsafe' : st.Safe { s.table with writeSet := s.writes txn } := by cases st <;> exact hsafe
  have hC : Consistent tab s.table.rows { s.table with writeSet := s.writes txn } :=
    ⟨rfl, hw.consistent.index⟩
  have hcases := after_consistent hC hw.rolls hlegal' hsafe'
  have hbits : ∀ r, (st.after tab { s.table with writeSet := s.writes txn }).2.bitmap r = true →
      s.table.bitmap r = true ∨ r ∈ st.freeRecords := fun r hr => after_file hlegal' hr
  unfold TableServer.execute at hs
  obtain ⟨hin, hs⟩ := Option.ite_none_right_eq_some.1 hs
  generalize hafter : st.after tab { s.table with writeSet := s.writes txn } = res at hs hcases hbits
  cases hs
  refine {
    locks := hlocks.inv
    threads := fun u => ?threads
    sole := fun u hown => ?sole
    blank := fun u hown => ?blank
    pages := h.pages
    file := fun r hr => (hbits r hr).elim (h.file r) (hin r)
    committed := h.committed
    content := ⟨txn, fun u hu => ?others, ?content⟩
    scans := fun u e => ?scans
    results := h.results }
  case threads =>
    by_cases hu : u = txn
    · subst hu
      unfold ThreadOk
      simp only [Function.update_self]
      cases res.1 <;> exact hawake
    · exact (h.threads u).congr (Function.update_of_ne hu ..) (hlocks.waiting u hu)
  case sole =>
    by_cases hu : u = txn
    · rw [hu]
      exact hmine
    · simp only [Function.update_of_ne hu] at hown
      exact absurd (hothers u hu) hown
  case blank =>
    by_cases hu : u = txn
    · subst hu
      simp at hown
    · simp only [Function.update_of_ne hu] at hown ⊢
      exact h.blank u hown
  case others => exact (Function.update_of_ne hu ..).trans (hothers u hu)
  case content =>
    rcases hcases with ⟨c', rfl, hC', hR'⟩ | ⟨L, W, r, old, new, c', rfl, hws, hR', hother, hhalf⟩
    · refine .inl ⟨?_, ?_, hC'⟩
      · obtain ⟨c, hCc, hws, hc⟩ := hw.view
        refine ⟨c, hCc, hws, ?_⟩
        simp only [Function.update_self, afterAll, List.foldl_append, List.foldl_cons, List.foldl_nil]
        rw [afterAll] at hc
        rw [hc, hafter]
      · simp only [Function.update_self]
        exact hR'
    · refine .inr ⟨Function.update_self .., fun e => closeScans_self, by simp, L, W, r, old, new, ?_,
        hR', hother, hhalf⟩
      exact (Function.update_self ..).trans hws
  case scans =>
    change ScanPhase.Ok _ _ _ (s.closeScans txn (u, e))
    by_cases hu : u = txn
    · rw [hu, closeScans_self]
      trivial
    · rw [closeScans_of_ne hu]
      -- the others have no lock, and so they have read nothing
      refine (h.scans u e).of_not_held fun hheld => hu (hlocks.inv.alone hmine ?_)
      rw [hlocks.lockSet u hu]
      exact hheld

omit [∀ i, LawfulIxKey (K i)] in
theorem Inv.within_release (hawake : s.locks.waiting txn = none) :
    Within s.locks (s.release fd txn) txn (.table fd) := by
  unfold release
  split
  · exact h.locks.within_unlock hawake
  · exact ⟨h.locks, Frame.refl .., fun _ _ => rfl, fun _ _ => rfl⟩

omit [∀ i, LawfulIxKey (K i)] in
/-- The end of a transaction that has written nothing, or leaves a table with committed rows. -/
theorem Inv.leave (hawake : s.locks.waiting txn = none)
    (hfile : ∀ r, table.bitmap r = true → r ∈ s.slots perPage)
    (hcommitted : ∀ r, committed r ≠ none → r ∈ s.slots perPage)
    (hchange : (s.own txn = [] ∧ (∃ ws, table = { s.table with writeSet := ws }) ∧
      committed = s.committed) ∨
      (s.own txn ≠ [] ∧ Consistent tab committed table)) :
      (s.leave fd txn table committed).Inv tab fd perPage := by
  have hwithin := h.within_release hawake
  refine {
    locks := hwithin.inv
    threads := fun u => ?threads
    sole := fun u hown => ?sole
    blank := fun u hown => ?blank
    pages := h.pages
    file := hfile
    committed := hcommitted
    content := ?content
    scans := fun u e => ?scans
    results := h.results }
  case threads =>
    by_cases hu : u = txn
    · subst hu
      unfold ThreadOk
      rw [show (s.leave fd u table committed).threads u = .ended from Function.update_self ..]
      exact (s.release_waiting fd u).symm ▸ hawake
    · exact (h.threads u).congr (Function.update_of_ne hu ..) (hwithin.waiting u hu)
  case sole =>
    have hu : u ≠ txn := by
      rintro rfl
      exact hown (Function.update_self ..)
    rw [show (s.leave fd txn table committed).own u = s.own u from Function.update_of_ne hu ..] at hown
    exact hwithin.frame.holdsX (h.locks.queues _) hu (h.sole u hown)
  case blank =>
    by_cases hu : u = txn
    · rw [hu]
      exact Function.update_self ..
    · rw [show (s.leave fd txn table committed).own u = s.own u from Function.update_of_ne hu ..] at hown
      exact (Function.update_of_ne hu ..).trans (h.blank u hown)
  case content =>
    rcases hchange with ⟨hown, ⟨ws, rfl⟩, rfl⟩ | ⟨hown, hC⟩
    · have hown' : (s.leave fd txn { s.table with writeSet := ws } s.committed).own = s.own :=
        Function.update_eq_self_iff.2 hown.symm
      have hws' : (s.leave fd txn { s.table with writeSet := ws } s.committed).writes = s.writes :=
        Function.update_eq_self_iff.2 (h.blank txn hown).symm
      obtain ⟨writer, hothers, hwhole | hhalf⟩ := h.content
      · refine ⟨writer, by rw [hown']; exact hothers,
          .inl ⟨?_, ?_, hwhole.consistent.rows, hwhole.consistent.index⟩⟩
        · rw [hown', hws']
          exact hwhole.view
        · rw [hws']
          exact hwhole.rolls
      · have hne : writer ≠ txn := by
          rintro rfl
          exact hhalf.own hown
        obtain ⟨L, W, r, old, new, hws, hR, hother, hh⟩ := hhalf.half
        refine ⟨writer, by rw [hown']; exact hothers, .inr ⟨?_, fun e => ?_, by rw [hown']; exact hhalf.own,
          L, W, r, old, new, by rw [hws']; exact hws, hR, hother, hh.rows, hh.before, hh.uniq, hh.index⟩⟩
        · exact (Function.update_of_ne hne ..).trans hhalf.dying
        · exact (closeScans_of_ne hne).trans (hhalf.closed e)
    · refine ⟨txn, fun u hu => ?_,
        .inl (whole_of_blank hC (Function.update_self ..) (Function.update_self ..))⟩
      exact (Function.update_of_ne hu ..).trans (h.others_of_own hown hu)
  case scans =>
    change ScanPhase.Ok _ _ _ (s.closeScans txn (u, e))
    by_cases hu : u = txn
    · rw [hu, closeScans_self]
      trivial
    · rw [closeScans_of_ne hu]
      rcases hchange with ⟨-, ⟨ws, rfl⟩, -⟩ | ⟨hown, -⟩
      · refine (h.scans u e).mono (sameScans_commit ..) fun hheld => ?_
        change _ ∈ (s.release fd txn).lockSet u
        rw [hwithin.lockSet u hu]
        exact hheld
      · exact (h.scans u e).of_not_held fun hheld => hu (h.locks.alone (h.sole txn hown) hheld)

omit [∀ i, LawfulIxKey (K i)] in
theorem Inv.awake (hrun : s.threads txn = .running ∨ s.threads txn = .dying) :
    s.locks.waiting txn = none := by
  have hok := h.threads txn
  unfold ThreadOk at hok
  rcases hrun with hrun | hrun
  · rw [hrun] at hok
    exact hok
  · rw [hrun] at hok
    exact hok

omit [∀ i, LawfulIxKey (K i)] in
theorem Inv.getRecord (hrun : s.threads txn = .running)
    (hguard : (s.locks.lockSharedOnTable txn fd).1 = .returned → s.UpToDate perPage txn scan)
    (hs : s.getRecord fd txn scan = some s') : s'.Inv tab fd perPage := by
  have hawake := h.awake (.inl hrun)
  have hnot : s.threads txn ≠ .dying := by
    rw [hrun]
    nofun
  unfold TableServer.getRecord at hs
  unfold lockSharedOnTable at hs hguard
  cases hcall : s.locks.lockOnTable txn fd .shared with
  | mk res locks =>
      have hlocks := h.locks.acquires_call hawake (.inl rfl) hcall
      have hwait := lockOnTable_waiting hcall
      rw [hcall] at hs hguard
      cases res with
      | returned =>
          exact h.takeRecord hnot (hguard rfl) hlocks (lockOnTable_granted hcall) (hwait.trans hawake) hs
      | waits =>
          cases hs
          refine h.setThread hnot hlocks ?_
          have hheld : ¬ s.Held fd txn := fun hc => by cases (h.locks.lockOnTable_held hc (.inl rfl) hcall).1
          unfold ThreadOk
          rw [setThread_self]
          exact hwait.trans (by rw [if_pos rfl, if_neg hheld])
      | dies =>
          cases hs
          refine h.setThread hnot hlocks ?_
          unfold ThreadOk
          rw [setThread_self]
          exact hwait.trans hawake
      | nullRequest => cases hs

omit [∀ i, LawfulIxKey (K i)] in
theorem Inv.closeScans : Inv tab fd perPage { s with scans := s.closeScans txn } where
  locks := h.locks
  threads := h.threads
  sole := h.sole
  blank := h.blank
  pages := h.pages
  file := h.file
  committed := h.committed
  content := by
    obtain ⟨writer, hothers, hwhole | hhalf⟩ := h.content
    · exact ⟨writer, hothers, .inl ⟨hwhole.view, hwhole.rolls, hwhole.consistent⟩⟩
    · refine ⟨writer, hothers, .inr ⟨hhalf.dying, fun e => ?_, hhalf.own, hhalf.half⟩⟩
      by_cases hw : writer = txn
      · rw [hw]
        exact closeScans_self
      · exact (closeScans_of_ne hw).trans (hhalf.closed e)
  scans u e := by
    change ScanPhase.Ok _ _ _ (s.closeScans txn (u, e))
    by_cases hu : u = txn
    · rw [hu, closeScans_self]
      trivial
    · rw [closeScans_of_ne hu]
      exact h.scans u e
  results := h.results

theorem Inv.statement (hrun : s.threads txn = .running) (hguard : s.Guard fd perPage (.statement txn st))
    (hs : s.statement tab fd perPage txn st = some s') : s'.Inv tab fd perPage := by
  have hawake := h.awake (.inl hrun)
  have hnot : s.threads txn ≠ .dying := by
    rw [hrun]
    nofun
  simp only [Guard, lockExclusiveOnTable] at hguard
  unfold TableServer.statement lockExclusiveOnTable at hs
  by_cases hask : st.asksLock = false
  · rw [if_pos hask] at hs
    cases hs
    exact h.closeScans
  rw [if_neg hask] at hs
  obtain ⟨-, hs⟩ := Option.ite_none_left_eq_some.1 hs
  cases hcall : s.locks.lockOnTable txn fd .exlucsive with
  | mk res locks =>
      have hlocks := h.locks.acquires_call hawake (.inr rfl) hcall
      have hwait := lockOnTable_waiting hcall
      rw [hcall] at hs hguard
      cases res with
      | returned =>
          obtain ⟨hlegal, hsafe⟩ := hguard (Bool.eq_true_of_not_eq_false hask) rfl
          exact h.execute hnot hlegal hsafe hlocks (h.locks.lockExclusive_returned hawake hcall)
            (hwait.trans hawake) hs
      | waits =>
          cases hs
          refine h.setThread hnot hlocks ?_
          unfold ThreadOk
          rw [setThread_self]
          by_cases hheld : s.Held fd txn
          · exact .inr (hwait.trans (by rw [if_pos rfl, if_pos hheld]))
          · exact .inl (hwait.trans (by rw [if_pos rfl, if_neg hheld]))
      | dies =>
          cases hs
          refine h.setThread hnot hlocks ?_
          unfold ThreadOk
          rw [setThread_self]
          exact hwait.trans hawake
      | nullRequest => cases hs

theorem Inv.wake (hguard : s.Guard fd perPage (.wake txn)) (hs : s.wake tab perPage txn = some s') :
    s'.Inv tab fd perPage := by
  have hok := h.threads txn
  unfold ThreadOk at hok
  unfold TableServer.wake at hs
  simp only [Guard] at hguard
  cases hwoken : s.locks.wakeUp txn with
  | none =>
      rw [hwoken] at hs
      cases hs
  | some woken =>
      obtain ⟨res, locks⟩ := woken
      rw [hwoken] at hs
      have hawake := wakeUp_awake hwoken
      cases hthread : s.threads txn with
      | running | dying | ended =>
          rw [hthread] at hs
          cases hs
      | locking scan =>
          rw [hthread] at hs hok hguard
          have hlocks := h.locks.acquires_wakeUp hwoken (.inl hok)
          exact h.takeRecord (by rw [hthread]; nofun) hguard hlocks (wakeUp_request hwoken hok) hawake hs
      | blocked st =>
          rw [hthread] at hs hok hguard
          have hlocks := h.locks.acquires_wakeUp hwoken (.inr hok)
          have hmine := h.locks.wakeUp_returned hwoken hok
          exact h.execute (by rw [hthread]; nofun) hguard.1 hguard.2 hlocks hmine hawake hs

omit [∀ i, LawfulIxKey (K i)] in
theorem Inv.commit (hrun : s.threads txn = .running) : (s.commit fd txn).Inv tab fd perPage := by
  have hawake := h.awake (.inl hrun)
  by_cases hown : s.own txn = []
  · have hws := h.blank txn hown
    refine h.leave hawake h.file ?_ (.inl ⟨hown, ⟨s.table.writeSet, rfl⟩, by rw [hws]; rfl⟩)
    rw [hws]
    exact h.committed
  · have hothers : ∀ u, u ≠ txn → s.writes u = [] := fun u hu => h.blank u (h.others_of_own hown hu)
    have hw : s.Whole tab txn := h.whole hothers fun hhalf => by cases hrun.symm.trans hhalf.dying
    have hrows : (if (s.writes txn).isEmpty then s.committed else s.table.rows) = s.table.rows := by
      split
      · rename_i hempty
        exact (hw.blank (List.isEmpty_iff.1 hempty)).rows.symm
      · rfl
    refine h.leave hawake h.file ?_ (.inr ⟨hown, by rw [hrows]; exact hw.consistent⟩)
    rw [hrows]
    exact fun r hr => h.file r ((bitmap_iff rfl).2 hr)

theorem Inv.abort (hrun : s.threads txn = .running ∨ s.threads txn = .dying)
    (hs : s.abort tab fd txn = some s') :
    s'.Inv tab fd perPage := by
  have hawake := h.awake hrun
  unfold TableServer.abort at hs
  by_cases hown : s.own txn = []
  · have hrun' : (Exec.abort tab).run { s.table with writeSet := s.writes txn } =
        .ok () { s.table with writeSet := s.writes txn } := by
      rw [abort_eq (W := []) (h.blank txn hown)]
      rfl
    rw [hrun'] at hs
    cases hs
    exact h.leave hawake h.file h.committed (.inl ⟨hown, ⟨_, rfl⟩, rfl⟩)
  · have hothers : ∀ u, u ≠ txn → s.writes u = [] := fun u hu => h.blank u (h.others_of_own hown hu)
    have hback : ∃ c', (Exec.abort tab).run { s.table with writeSet := s.writes txn } = .ok () c' ∧
        Consistent tab s.committed c' := by
      by_cases hhalf : s.Halfway tab txn
      · obtain ⟨L, W, r, old, new, hws, hR, hother, hh⟩ := hhalf.half
        exact abort_half hws hR hother ⟨hh.rows, hh.before, hh.uniq, hh.index⟩
      · have hw := h.whole hothers hhalf
        exact abort_consistent ⟨hw.consistent.rows, hw.consistent.index⟩ hw.rolls
    obtain ⟨c', hrun', hC⟩ := hback
    rw [hrun'] at hs
    cases hs
    exact h.leave hawake (fun r hr => h.committed r ((bitmap_iff hC.rows).1 hr)) h.committed (.inr ⟨hown, hC⟩)

omit [∀ i, LawfulIxKey (K i)] in
theorem Inv.newPage : Inv tab fd perPage { s with numPages := s.numPages + 1 } := by
  have hslots : fileSlots (s.numPages + 1) perPage =
      s.slots perPage ++ (List.range perPage).map fun (k : Nat) => ⟨s.numPages, k⟩ := fileSlots_succ h.pages
  have hgrow : ∀ r, r ∈ s.slots perPage → r ∈ fileSlots (s.numPages + 1) perPage := by
    intro r hr
    rw [hslots]
    exact List.mem_append_left _ hr
  refine ⟨h.locks, h.threads, h.sole, h.blank, Nat.le_succ_of_le h.pages, fun r hr => hgrow r (h.file r hr),
    fun r hr => hgrow r (h.committed r hr), ?_, fun u e => ?_, h.results⟩
  · obtain ⟨writer, hothers, hwhole | hhalf⟩ := h.content
    · exact ⟨writer, hothers, .inl ⟨hwhole.view, hwhole.rolls, hwhole.consistent⟩⟩
    · exact ⟨writer, hothers, .inr ⟨hhalf.dying, hhalf.closed, hhalf.own, hhalf.half⟩⟩
  · refine (h.scans u e).mono ?_ id
    change SameScans (s.slots perPage) (fileSlots (s.numPages + 1) perPage) s.table s.table
    rw [hslots]
    refine sameScans_append fun r hr => ?_
    obtain ⟨k, -, rfl⟩ := List.mem_map.1 hr
    by_contra hbit
    have hmem := (mem_fileSlots.1 (h.file _ (by simpa using hbit))).2.1
    simp at hmem

omit [∀ i, LawfulIxKey (K i)] in
theorem Inv.construct (hrun : s.threads txn = .running) (plan : ScanQuery n K) :
    (s.construct perPage txn scan plan).Inv tab fd perPage := by
  refine h.setScan hrun ?_
  cases plan with
  | seq conds => exact rfl
  | index i lower upper conds =>
      simp only
      cases (s.table.ihs i).lowerBound lower <;> trivial

omit [∀ i, LawfulIxKey (K i)] in
theorem Inv.upperBound (hrun : s.threads txn = .running) (hs : s.upperBound txn scan = some s') :
    s'.Inv tab fd perPage := by
  unfold TableServer.upperBound at hs
  split at hs
  · rename_i i lower upper conds first hphase
    cases hs
    refine h.setScan hrun ?_
    cases (s.table.ihs i).upperBound upper with
    | ok last => exact rfl
    | error e => trivial
  · cases hs

omit [∀ i, LawfulIxKey (K i)] in
theorem Inv.rid (hrun : s.threads txn = .running) (hs : s.rid perPage txn scan = some s') :
    s'.Inv tab fd perPage := by
  have hok := h.scans txn scan
  unfold TableServer.rid at hs
  split at hs
  · rename_i plan pos rows begun hphase
    rw [hphase] at hok
    split at hs
    · cases hs
    · rename_i hend
      cases hs
      refine h.setScan hrun ?_
      cases hget : (s.cursor perPage).get pos with
      | error e => trivial
      | ok rid =>
          cases begun with
          | false => exact ⟨hok, Bool.eq_false_iff.2 hend⟩
          | true => exact ⟨hok, Bool.eq_false_iff.2 hend, hget⟩
  · cases hs

omit [∀ i, LawfulIxKey (K i)] in
theorem Inv.next (hrun : s.threads txn = .running) (hs : s.next perPage txn scan = some s') :
    s'.Inv tab fd perPage := by
  have hok := h.scans txn scan
  unfold TableServer.next at hs
  split at hs
  · rename_i plan pos rows hphase
    rw [hphase] at hok
    obtain ⟨rid, read, ⟨hheld, start, rids, hstart, hseen, rfl⟩, hend, hget, rfl⟩ := hok
    cases hs
    refine h.setScan hrun ?_
    cases hnext : (s.cursor perPage).next pos with
    | error e => trivial
    | ok pos' =>
        exact ⟨hheld, start, rids ++ [rid], hstart, .step hseen hend hget hnext, (takenRows_snoc ..).symm⟩
  · cases hs

theorem Inv.finish (hrun : s.threads txn = .running) (hguard : s.Guard fd perPage (.finish txn scan))
    (hs : s.finish perPage txn scan = some s') : s'.Inv tab fd perPage := by
  have hok := h.scans txn scan
  have hnot : ¬ s.Halfway tab txn := fun hhalf => by cases hrun.symm.trans hhalf.dying
  simp only [Guard] at hguard
  unfold TableServer.finish at hs
  split at hs
  · rename_i plan pos rows begun hphase
    rw [hphase] at hok hguard
    obtain ⟨hend, hs⟩ := Option.ite_none_right_eq_some.1 hs
    cases hs
    have hclean : ScanResult.Clean tab ⟨txn, plan, rows, s.committed, s.own txn⟩ := by
      cases begun with
      | false =>
          have hread : ScanPhase.Reads (s.slots perPage) s.table True plan pos rows :=
            ⟨trivial, pos, [], hguard.1, .start, hok⟩
          exact h.clean (h.whole hguard.2 hnot) hread hend
      | true => exact h.clean (h.whole_of_held hok.1 hnot) hok hend
    have hclosed : (s.setScan txn scan .closed).Inv tab fd perPage := h.setScan hrun trivial
    exact { hclosed with
      content := by
        obtain ⟨writer, hothers, hwhole | hhalf⟩ := hclosed.content
        · exact ⟨writer, hothers, .inl ⟨hwhole.view, hwhole.rolls, hwhole.consistent⟩⟩
        · exact ⟨writer, hothers, .inr ⟨hhalf.dying, hhalf.closed, hhalf.own, hhalf.half⟩⟩
      results := List.forall_mem_cons.2 ⟨hclean, h.results⟩ }
  · cases hs

theorem Inv.step {a : ServerAction n K} (hguard : s.Guard fd perPage a)
    (hs : step tab fd perPage s a = some s') :
    s'.Inv tab fd perPage := by
  cases a with
  | construct txn scan plan =>
      obtain ⟨hrun, hs⟩ := whenRunning_eq_some hs
      cases hs
      exact h.construct hrun plan
  | upperBound txn scan =>
      obtain ⟨hrun, hs⟩ := whenRunning_eq_some hs
      exact h.upperBound hrun hs
  | rid txn scan =>
      obtain ⟨hrun, hs⟩ := whenRunning_eq_some hs
      exact h.rid hrun hs
  | getRecord txn scan =>
      obtain ⟨hrun, hs⟩ := whenRunning_eq_some hs
      exact h.getRecord hrun hguard hs
  | next txn scan =>
      obtain ⟨hrun, hs⟩ := whenRunning_eq_some hs
      exact h.next hrun hs
  | finish txn scan =>
      obtain ⟨hrun, hs⟩ := whenRunning_eq_some hs
      exact h.finish hrun hguard hs
  | giveUp txn scan =>
      obtain ⟨hrun, hs⟩ := whenRunning_eq_some hs
      cases hs
      exact h.setScan hrun trivial
  | wake txn => exact h.wake hguard hs
  | newPage =>
      cases hs
      exact h.newPage
  | statement txn st =>
      obtain ⟨hrun, hs⟩ := whenRunning_eq_some hs
      exact h.statement hrun hguard hs
  | commit txn =>
      obtain ⟨hrun, hs⟩ := whenRunning_eq_some hs
      cases hs
      exact h.commit hrun
  | abort txn =>
      cases hthread : s.threads txn with
      | running =>
          simp only [TableServer.step, hthread] at hs
          exact h.abort (.inl hthread) hs
      | dying =>
          simp only [TableServer.step, hthread] at hs
          exact h.abort (.inr hthread) hs
      | locking | blocked | ended =>
          simp only [TableServer.step, hthread] at hs
          cases hs

end Steps

theorem inv_init {numPages : Nat} (hC : Consistent tab table.rows table) (hpages : 1 ≤ numPages)
    (hfile : ∀ r, table.bitmap r = true → r ∈ fileSlots numPages perPage) :
    (init table numPages).Inv tab fd perPage where
  locks := lockInv_init
  threads _ := rfl
  sole _ h := absurd rfl h
  blank _ _ := rfl
  pages := hpages
  file := hfile
  committed r hr := hfile r ((bitmap_iff rfl).2 hr)
  content := ⟨0, fun _ _ => rfl, .inl (whole_of_blank hC rfl rfl)⟩
  scans _ _ := trivial
  results := by simp [init]

variable [∀ i, LawfulIxKey (K i)]

section Example

def idScan : ScanQuery 1 (fun _ => Key intLayout) := .seq fun _ => true

def idTable : TableServer 1 (fun _ => Key intLayout) := init (freshTable fun _ => intLayout) 2

def idIndex : Fin 1 := ⟨0, Nat.one_pos⟩

def idInsert : DmlPlan := .insert [(some (idRow 1), ⟨1, 0⟩)]

/-- A reader waits for the lock with the rid of a row in its hand that is undone meanwhile. -/
def undoneRun : List (ServerAction 1 (fun _ => Key intLayout)) :=
  [.statement 2 idInsert, .construct 1 0 idScan, .rid 1 0, .getRecord 1 0, .abort 2, .wake 1,
    .next 1 0, .finish 1 0]

def missedRun : List (ServerAction 1 (fun _ => Key intLayout)) :=
  [.statement 2 idInsert, .commit 2, .construct 3 0 idScan, .rid 3 0, .getRecord 3 0,
    .statement 3 (.delete [⟨1, 0⟩]), .construct 1 0 idScan, .finish 1 0]

def committedRun : List (ServerAction 1 (fun _ => Key intLayout)) :=
  [.statement 2 idInsert, .commit 2,
    .construct 1 0 (.index idIndex (idTab.key idIndex (idRow 0))
      (idTab.key idIndex (idRow 9)) fun _ => true),
    .upperBound 1 0, .rid 1 0, .getRecord 1 0, .next 1 0, .finish 1 0]

def isSeq : ScanQuery 1 (fun _ => Key intLayout) → Bool
  | .seq _ => true
  | .index .. => false

theorem wants_of_isSeq {plan : ScanQuery 1 fun _ => Key intLayout} {row : Row} (h : isSeq plan = true) :
    plan.Wants idTab row ↔ plan.conds row = true := by
  cases plan with
  | seq conds => exact and_iff_right trivial
  | index i lower upper conds => cases h

end Example
end TableServer

end Rmdb
