import Rmdb.Record.RecordMap
import Rmdb.Transaction.LockManager

namespace Rmdb

inductive InsertPhase
  | idle
  | chosen (rid : Rid) (buf : Bytes)
  | logged (rid : Rid) (buf : Bytes)
  | locked (rid : Rid) (buf : Bytes)
  | dying
  | committed
  | aborted
deriving DecidableEq

def InsertPhase.target : InsertPhase → Option (Rid × Bytes)
  | .chosen rid buf | .logged rid buf | .locked rid buf => some (rid, buf)
  | _ => none

/-- Transactions that insert into one table. `inserted` is the write set of each with the records, the
latest first; it stays when the transaction has committed. -/
structure Inserts where
  file : RmFileHandle
  locks : LockState
  log : List (TxnId × Rid × Bytes)
  phase : TxnId → InsertPhase
  inserted : TxnId → List (Rid × Bytes)

inductive InsertAction
  | getFreeRecord (txn : TxnId) (buf : Bytes)
  | addLog (txn : TxnId)
  | lockExclusive (txn : TxnId)
  | wake (txn : TxnId)
  | insertRecord (txn : TxnId)
  | commit (txn : TxnId)
  | abort (txn : TxnId)

namespace Inserts

def start (f : RmFileHandle) : Inserts := ⟨f, .init, [], fun _ => .idle, fun _ => []⟩

variable (fd : Int) (s : Inserts) (txn : TxnId)

def setPhase (phase : InsertPhase) : Inserts := { s with phase := Function.update s.phase txn phase }

/-- The loop over `lock_set_` that ends `commit` and `abort`. -/
def release : LockState :=
  if LockDataId.table fd ∈ s.locks.lockSet txn then s.locks.unlock txn (.table fd) else s.locks

def undo : RmFileHandle → List (Rid × Bytes) → RmFileHandle
  | f, [] => f
  | f, w :: ws =>
      match f.deleteRecord w.1 with
      | .ok f' => undo f' ws
      | .error _ => f

/-- A record buffer has `record_size` bytes. A call of `get_free_record` that throws ends the statement, and
one of `lock_exclusive_on_table` that throws makes the transaction abort. -/
def step (s : Inserts) : InsertAction → Option Inserts
  | .getFreeRecord txn buf =>
      if s.phase txn = .idle ∧ buf.length = s.file.fileHdr.recordSize then
        match s.file.getFreeRecord with
        | (.ok rid, f) => some ({ s with file := f }.setPhase txn (.chosen rid buf))
        | (.error _, f) => some { s with file := f }
      else none
  | .addLog txn =>
      match s.phase txn with
      | .chosen rid buf => some ({ s with log := s.log ++ [(txn, rid, buf)] }.setPhase txn (.logged rid buf))
      | _ => none
  | .lockExclusive txn =>
      match s.phase txn, s.locks.waiting txn with
      | .logged rid buf, none =>
          match s.locks.lockExclusiveOnTable txn fd with
          | (.returned, l) => some ({ s with locks := l }.setPhase txn (.locked rid buf))
          | (.waits, l) => some { s with locks := l }
          | (.dies, l) => some ({ s with locks := l }.setPhase txn .dying)
          | (.nullRequest, _) => none
      | _, _ => none
  | .wake txn =>
      match s.phase txn, s.locks.wakeUp txn with
      | .logged rid buf, some (_, l) => some ({ s with locks := l }.setPhase txn (.locked rid buf))
      | _, _ => none
  | .insertRecord txn =>
      match s.phase txn with
      | .locked rid buf =>
          match s.file.insertRecordAt rid buf with
          | .ok f => some ({ s with
              file := f
              inserted := Function.update s.inserted txn ((rid, buf) :: s.inserted txn) }.setPhase txn .idle)
          | .error _ => none
      | _ => none
  | .commit txn =>
      if s.phase txn = .idle then some ({ s with locks := s.release fd txn }.setPhase txn .committed)
        else none
  | .abort txn =>
      if s.phase txn = .idle ∨ s.phase txn = .dying then
        some ({ s with
          file := undo s.file (s.inserted txn)
          locks := s.release fd txn
          inserted := Function.update s.inserted txn [] }.setPhase txn .aborted)
      else none

end Inserts

namespace Inserts

open RmFileHandle

variable {fd : Int} {s s' : Inserts} {txn : TxnId} {a : InsertAction}

/-- The rows of committed transactions are there with their own bytes, and no two inserts have written the
same rid. -/
structure NoLostInsert (s : Inserts) : Prop where
  present : ∀ txn, s.phase txn = .committed → ∀ w ∈ s.inserted txn, s.file.entry w.1 = some w.2
  once : ∀ txn, ((s.inserted txn).map Prod.fst).Nodup
  apart : ∀ txn txn', txn ≠ txn' → ∀ w ∈ s.inserted txn, ∀ w' ∈ s.inserted txn', w.1 ≠ w'.1

def SlotFree (s : Inserts) : InsertAction → Prop
  | .insertRecord txn => ∀ rid buf, s.phase txn = .locked rid buf → s.file.entry rid = none
  | _ => True

instance (s : Inserts) : ∀ a, Decidable (s.SlotFree a)
  | .insertRecord txn =>
      match h : s.phase txn with
      | .locked rid buf => decidable_of_iff (s.file.entry rid = none) (by simp [SlotFree, h])
      | .idle | .chosen .. | .logged .. | .dying | .committed | .aborted => .isTrue (by simp [SlotFree, h])
  | .getFreeRecord .. | .addLog _ | .lockExclusive _ | .wake _ | .commit _ | .abort _ => .isTrue trivial

structure Inv (s : Inserts) : Prop where
  file : RmInv s.file
  target : ∀ txn rid buf, (s.phase txn).target = some (rid, buf) →
    s.file.InFile rid ∧ buf.length = s.file.fileHdr.recordSize
  present : ∀ txn, ∀ w ∈ s.inserted txn, s.file.entry w.1 = some w.2
  once : ∀ txn, ((s.inserted txn).map Prod.fst).Nodup
  apart : ∀ txn txn', txn ≠ txn' → ∀ w ∈ s.inserted txn, ∀ w' ∈ s.inserted txn', w.1 ≠ w'.1

theorem Inv.noLostInsert (h : Inv s) : NoLostInsert s := ⟨fun txn _ => h.present txn, h.once, h.apart⟩

section Steps

/-- The file grows and keeps its records, and the transaction has no new target or one in the file. -/
theorem Inv.setPhase (h : Inv s) {f : RmFileHandle} {l : LockState} {log : List (TxnId × Rid × Bytes)}
    {phase : InsertPhase} (hf : RmInv f) (hentry : f.entry = s.file.entry) (hext : Extends s.file f)
    (htarget : ∀ rid buf, phase.target = some (rid, buf) → f.InFile rid ∧ buf.length = f.fileHdr.recordSize) :
    Inv ({ s with file := f, locks := l, log := log }.setPhase txn phase) where
  file := hf
  target := by
    intro t rid buf ht
    by_cases htx : t = txn
    · subst htx
      simp only [Inserts.setPhase, Function.update_self] at ht
      exact htarget rid buf ht
    · simp only [Inserts.setPhase, Function.update_of_ne htx] at ht
      obtain ⟨hin, hlen⟩ := h.target t rid buf ht
      exact ⟨hext.inFile hin, hlen.trans hext.recordSize.symm⟩
  present t w hw := by
    have := h.present t w hw
    simp only [Inserts.setPhase, hentry]
    exact this
  once := h.once
  apart := h.apart

theorem extends_refl (f : RmFileHandle) : Extends f f := ⟨rfl, rfl, fun _ hp => hp⟩

theorem Inv.move (h : Inv s) {l : LockState} {log : List (TxnId × Rid × Bytes)} {phase : InsertPhase}
    (htarget : ∀ rid buf, phase.target = some (rid, buf) → (s.phase txn).target = some (rid, buf)) :
    Inv ({ s with locks := l, log := log }.setPhase txn phase) :=
  h.setPhase h.file rfl (extends_refl _) fun rid buf ht => h.target txn rid buf (htarget rid buf ht)

theorem undo_spec {f : RmFileHandle} (ws : List (Rid × Bytes)) (h : RmInv f) (hin : ∀ w ∈ ws, f.InFile w.1) :
    RmInv (undo f ws) ∧ Extends f (undo f ws) ∧
      ∀ rid, rid ∉ ws.map Prod.fst → (undo f ws).entry rid = f.entry rid := by
  induction ws generalizing f with
  | nil => exact ⟨h, extends_refl f, fun _ _ => rfl⟩
  | cons w ws ih =>
      obtain ⟨f', hrun, hentry, h'⟩ := deleteRecord_spec h (hin w List.mem_cons_self)
      have hext := deleteRecord_extends (hin w List.mem_cons_self) hrun
      obtain ⟨hinv, hext', hother⟩ := ih h' fun w' hw' => hext.inFile (hin w' (List.mem_cons_of_mem _ hw'))
      rw [undo, hrun]
      refine ⟨hinv, ⟨hext'.recordSize.trans hext.recordSize, hext'.capacity.trans hext.capacity,
        fun p hp => hext'.pages p (hext.pages p hp)⟩, fun rid hrid => ?_⟩
      rw [List.map_cons, List.mem_cons, not_or] at hrid
      rw [hother rid hrid.2, hentry, Function.update_of_ne hrid.1]

theorem Inv.abort (h : Inv s) {l : LockState} :
    Inv ({ s with
      file := undo s.file (s.inserted txn)
      locks := l
      inserted := Function.update s.inserted txn [] }.setPhase txn .aborted) := by
  have hin : ∀ w ∈ s.inserted txn, s.file.InFile w.1 := by
    intro w hw
    refine inFile_of_entry ?_
    rw [h.present txn w hw]
    simp
  obtain ⟨hinv, hext, hother⟩ := undo_spec (s.inserted txn) h.file hin
  have hkeep : ∀ t, ∀ w ∈ Function.update s.inserted txn [] t, t ≠ txn ∧ w ∈ s.inserted t := by
    intro t w hw
    by_cases ht : t = txn
    · subst ht
      rw [Function.update_self] at hw
      cases hw
    · rw [Function.update_of_ne ht] at hw
      exact ⟨ht, hw⟩
  refine ⟨hinv, ?_, ?_, ?_, ?_⟩
  · intro t rid buf ht
    by_cases htx : t = txn
    · subst htx
      simp only [Inserts.setPhase, Function.update_self] at ht
      cases ht
    · simp only [Inserts.setPhase, Function.update_of_ne htx] at ht
      obtain ⟨hin, hlen⟩ := h.target t rid buf ht
      exact ⟨hext.inFile hin, hlen.trans hext.recordSize.symm⟩
  · intro t w hw
    obtain ⟨ht, hw⟩ := hkeep t w hw
    have hnot : w.1 ∉ (s.inserted txn).map Prod.fst := by
      intro hc
      obtain ⟨w', hw', heq⟩ := List.mem_map.1 hc
      exact h.apart t txn ht w hw w' hw' heq.symm
    exact (hother w.1 hnot).trans (h.present t w hw)
  · intro t
    by_cases ht : t = txn
    · subst ht
      simp [Inserts.setPhase]
    · simp only [Inserts.setPhase, Function.update_of_ne ht]
      exact h.once t
  · intro t t' htt w hw w' hw'
    exact h.apart t t' htt w (hkeep t w hw).2 w' (hkeep t' w' hw').2

theorem Inv.insertRecord (h : Inv s) {rid : Rid} {buf : Bytes} {f : RmFileHandle}
    (hphase : s.phase txn = .locked rid buf) (hfree : s.file.entry rid = none)
    (hrun : s.file.insertRecordAt rid buf = .ok f) :
    Inv ({ s with
      file := f
      inserted := Function.update s.inserted txn ((rid, buf) :: s.inserted txn) }.setPhase txn .idle) := by
  obtain ⟨hin, hlen⟩ := h.target txn rid buf (by rw [hphase]; rfl)
  obtain ⟨f', hrun', hentry, hinv⟩ := insertRecordAt_spec h.file hin hlen
  cases hrun.symm.trans hrun'
  have hext := insertRecordAt_extends hin hrun
  have hother : ∀ t, ∀ w ∈ s.inserted t, w.1 ≠ rid := by
    rintro t w hw rfl
    rw [h.present t w hw] at hfree
    cases hfree
  have hcases : ∀ t, ∀ w ∈ Function.update s.inserted txn ((rid, buf) :: s.inserted txn) t,
      t = txn ∧ w = (rid, buf) ∨ w ∈ s.inserted t := by
    intro t w hw
    by_cases ht : t = txn
    · subst ht
      rw [Function.update_self] at hw
      exact (List.mem_cons.1 hw).imp_left fun hc => ⟨rfl, hc⟩
    · rw [Function.update_of_ne ht] at hw
      exact .inr hw
  refine ⟨hinv, ?_, ?_, ?_, ?_⟩
  · intro t r b ht
    by_cases htx : t = txn
    · subst htx
      simp only [Inserts.setPhase, Function.update_self] at ht
      cases ht
    · simp only [Inserts.setPhase, Function.update_of_ne htx] at ht
      obtain ⟨hin, hlen⟩ := h.target t r b ht
      exact ⟨hext.inFile hin, hlen.trans hext.recordSize.symm⟩
  · intro t w hw
    simp only [Inserts.setPhase, hentry]
    rcases hcases t w hw with ⟨-, rfl⟩ | hw
    · exact Function.update_self ..
    · rw [Function.update_of_ne (hother t w hw)]
      exact h.present t w hw
  · intro t
    by_cases ht : t = txn
    · subst ht
      simp only [Inserts.setPhase, Function.update_self, List.map_cons]
      refine List.nodup_cons.2 ⟨fun hc => ?_, h.once t⟩
      obtain ⟨w, hw, heq⟩ := List.mem_map.1 hc
      exact hother t w hw heq
    · simp only [Inserts.setPhase, Function.update_of_ne ht]
      exact h.once t
  · intro t t' htt w hw w' hw'
    rcases hcases t w hw with ⟨rfl, rfl⟩ | hmem
    · rcases hcases t' w' hw' with ⟨rfl, -⟩ | hmem'
      · exact absurd rfl htt
      · exact (hother t' w' hmem').symm
    · rcases hcases t' w' hw' with ⟨rfl, rfl⟩ | hmem'
      · exact hother t w hmem
      · exact h.apart t t' htt w hmem w' hmem'

theorem Inv.step (h : Inv s) (hok : s.SlotFree a) (hstep : s.step fd a = some s') : Inv s' := by
  cases a with
  | getFreeRecord txn buf =>
      obtain ⟨⟨-, hlen⟩, hstep⟩ := Option.ite_none_right_eq_some.1 hstep
      obtain ⟨res, f, hrun, hf, hentry, hext, hok⟩ := getFreeRecord_spec h.file
      rw [hrun] at hstep
      cases res with
      | ok rid =>
          cases hstep
          refine h.setPhase hf hentry hext fun r b hb => ?_
          cases hb
          exact ⟨(hok rid rfl).1, hlen.trans hext.recordSize.symm⟩
      | error e =>
          cases hstep
          refine ⟨hf, fun t r b ht => ?_, fun t w hw => ?_, h.once, h.apart⟩
          · obtain ⟨hin, hlen⟩ := h.target t r b ht
            exact ⟨hext.inFile hin, hlen.trans hext.recordSize.symm⟩
          · rw [hentry]
            exact h.present t w hw
  | addLog txn =>
      rw [Inserts.step] at hstep
      split at hstep
      · rename_i hphase
        cases hstep
        exact h.move fun r b hb => by rw [hphase]; exact hb
      · cases hstep
  | lockExclusive txn =>
      rw [Inserts.step] at hstep
      split at hstep
      · rename_i hphase _
        split at hstep
        · cases hstep
          exact h.move fun r b hb => by rw [hphase]; exact hb
        · cases hstep
          exact ⟨h.file, h.target, h.present, h.once, h.apart⟩
        · cases hstep
          exact h.move fun r b hb => by cases hb
        · cases hstep
      · cases hstep
  | wake txn =>
      rw [Inserts.step] at hstep
      split at hstep
      · rename_i hphase _
        cases hstep
        exact h.move fun r b hb => by rw [hphase]; exact hb
      · cases hstep
  | insertRecord txn =>
      rw [Inserts.step] at hstep
      split at hstep
      · rename_i rid buf hphase
        split at hstep
        · rename_i f hrun
          cases hstep
          exact h.insertRecord hphase (hok rid buf hphase) hrun
        · cases hstep
      · cases hstep
  | commit txn =>
      obtain ⟨-, hstep⟩ := Option.ite_none_right_eq_some.1 hstep
      cases hstep
      exact h.move fun r b hb => by cases hb
  | abort txn =>
      obtain ⟨-, hstep⟩ := Option.ite_none_right_eq_some.1 hstep
      cases hstep
      exact h.abort

end Steps

theorem inv_start {f : RmFileHandle} (hf : RmInv f) : Inv (start f) where
  file := hf
  target _ _ _ ht := by cases ht
  present _ _ hw := by cases hw
  once _ := List.nodup_nil
  apart _ _ _ _ hw := by cases hw

/-- No insert is lost in a run in which every insert finds its slot still free. -/
theorem no_lost_insert (fd : Int) (f : RmFileHandle) (as : List InsertAction) (hf : RmInv f)
    (hfree : Trace.Guarded (step fd) SlotFree (start f) as) :
    Trace.Always (step fd) NoLostInsert (start f) as := by
  have hinv : Trace.Always (step fd) Inv (start f) as :=
    Trace.always_of_guarded (fun s a s' h hok hstep => h.step hok hstep) (inv_start hf) hfree
  exact hinv.mono fun s h => h.noLostInsert

theorem no_lost_insert_one_by_one :
    ∃ file, RmManager.createFile 1 = .ok file ∧
      Trace.Always (step 0) NoLostInsert (start (RmManager.openFile file))
        [.getFreeRecord 2 [7], .addLog 2, .lockExclusive 2, .insertRecord 2, .commit 2,
          .getFreeRecord 1 [8], .addLog 1, .lockExclusive 1, .insertRecord 1, .commit 1] := by
  refine ⟨_, rfl, no_lost_insert 0 _ _ (openFile_inv (show RmManager.createFile 1 = .ok _ from rfl)) ?_⟩
  decide

/-- Transactions 1 and 2 choose the same slot. Transaction 2 gets the lock first, writes and commits;
transaction 1, which is older and has waited, then writes over the row. -/
theorem older_insert_overwrites :
    ∃ file s, RmManager.createFile 1 = .ok file ∧
      Trace.run (step 0) (start (RmManager.openFile file))
        [.getFreeRecord 1 [8], .getFreeRecord 2 [7], .addLog 1, .addLog 2, .lockExclusive 2, .lockExclusive 1,
          .insertRecord 2, .commit 2, .wake 1, .insertRecord 1, .commit 1] = some s ∧
      s.phase 1 = .committed ∧ s.phase 2 = .committed ∧ ¬ NoLostInsert s := by
  refine ⟨_, _, rfl, rfl, by decide +kernel, by decide +kernel, fun h => ?_⟩
  have hlost := h.present 2 (by decide) (⟨1, 0⟩, [7]) (by decide)
  exact absurd hlost (by decide +kernel)

end Inserts

end Rmdb
