import Rmdb.Record.FreeList

namespace Rmdb

open Bitmap

namespace RmFileHandle

variable {f f₀ f' : RmFileHandle} {p q : Int} {page old : RmPage} {rid : Rid} {l : List Int}

/-- Every page that has room is on the free list, so the file grows only when all its pages are full. -/
structure KeepsSpace (f : RmFileHandle) : Prop where
  listed : ∀ p page, f.pages p = some page → page.pageHdr.numRecords < f.fileHdr.numRecordsPerPage →
    ∃ l, f.FreeList l ∧ p ∈ l
  grows : ∀ buf, (f.insertRecord buf).2.fileHdr.numPages ≠ f.fileHdr.numPages →
    ∀ p page, f.pages p = some page → page.pageHdr.numRecords = f.fileHdr.numRecordsPerPage

structure Lists (f : RmFileHandle) (l : List Int) : Prop where
  list : f.FreeList l
  all : ∀ p, f.pages p ≠ none → ¬ f.Full p → p ∈ l

theorem RmInv.lt_iff (h : RmInv f) (hp : f.pages p = some page) :
    page.pageHdr.numRecords < f.fileHdr.numRecordsPerPage ↔ ¬ f.Full p := by
  have hle : Bitmap.count page.data bitmapStart f.fileHdr.numRecordsPerPage ≤
    f.fileHdr.numRecordsPerPage := count_le
  rw [full_iff hp, h.count hp]
  omega

theorem Lists.full_of_nil (h : f.Lists []) (hp : f.pages p ≠ none) : f.Full p := by
  by_contra hc
  cases h.all p hp hc

section Steps

theorem createPageHandle_lists (h : RmInv f) (hout : f.FullOut)
    (hroom : f.Roomy f.fileHdr.firstFreePageNo) (hl : f.Lists l) (hc : f.createPageHandle = (p, f₀)) :
    ∃ l₀, f₀.Lists (p :: l₀) := by
  obtain ⟨p', f₁, page, hc', h₀, hp, -, -, -, -, hcase⟩ := createPageHandle_spec h
  cases hc.symm.trans hc'
  obtain ⟨_, _, _, hc', -, -, -, -, ⟨l', hl', hroom'⟩, hhead⟩ := createPageHandle_room h hout hroom
  cases hc.symm.trans hc'
  have hne := h₀.ne_noPage (by rw [hp]; simp)
  cases hl' with
  | nil => exact absurd rfl hne
  | @cons _ l₀ _ hl₀ =>
      have hlist : f₀.FreeList (p :: l₀) := by
        rw [FreeList, hhead]
        exact .cons hne hl₀
      refine ⟨l₀, hlist, fun q hq hnot => ?_⟩
      rcases hcase with ⟨hnone, rfl, -⟩ | ⟨-, -, rfl⟩
      · by_cases hqp : q = p
        · rw [hqp]
          exact List.mem_cons_self
        · -- every page but the new one was full
          rw [← hhead] at hqp
          have hold : f.createNewPageHandle.2.pages q = f.pages q := Function.update_of_ne hqp ..
          have hempty : l = [] := by
            have hlist := hl.list
            rw [FreeList, hnone] at hlist
            exact hlist.end_eq
          rw [hempty] at hl
          rw [hold] at hq
          refine absurd (hl.full_of_nil hq) ?_
          rwa [Full, hold] at hnot
      · rw [hlist.unique hl.list]
        exact hl.all q hq hnot

theorem Lists.unlinkFull (h : f.Lists (p :: l)) (hp : f.pages p = some old)
    (hnext : page.pageHdr.nextFreePageNo = old.pageHdr.nextFreePageNo) :
    ∃ l', (f.unlinkFull p page).Lists l' := by
  have hhead : f.fileHdr.firstFreePageNo = p ∧ Chain f.link rmNoPage p (p :: l) := by
    have hlist := h.list
    rw [FreeList] at hlist
    generalize f.fileHdr.firstFreePageNo = x at hlist
    cases hlist with
    | cons hne hl => exact ⟨rfl, .cons hne hl⟩
  have hall : ∀ q, f.pages q ≠ none → q ≠ p → ¬ f.Full q → q ∈ l := fun q hq hqp hnot =>
    (List.mem_cons.1 (h.all q hq hnot)).resolve_left hqp
  by_cases hfull : page.pageHdr.numRecords = f.fileHdr.numRecordsPerPage
  · refine ⟨l, ?_, ?_⟩
    · have hnot := hhead.2.notMem_of_cons
      cases hhead.2 with
      | cons _ hl =>
          rw [unlinkFull_eq hfull, FreeList, link_setPage]
          change Chain _ rmNoPage page.pageHdr.nextFreePageNo l
          rw [hnext, ← link_eq hp]
          refine hl.frame fun q hq => Function.update_of_ne ?_ ..
          rintro rfl
          exact hnot hq
    · intro q hq hnotfull
      rw [unlinkFull_eq hfull] at hq hnotfull
      have hqp : q ≠ p := by
        rintro rfl
        exact hnotfull (full_setPage_self.2 hfull)
      rw [full_setPage_of_ne hqp] at hnotfull
      rw [setPage_of_ne hqp] at hq
      exact hall q hq hqp hnotfull
  · refine ⟨p :: l, ?_, ?_⟩
    · rw [RmFileHandle.unlinkFull, if_neg hfull, FreeList, link_setPage_same hp hnext]
      exact h.list
    · intro q hq hnotfull
      rw [RmFileHandle.unlinkFull, if_neg hfull] at hq hnotfull
      by_cases hqp : q = p
      · rw [hqp]
        exact List.mem_cons_self
      · rw [full_setPage_of_ne hqp] at hnotfull
        rw [setPage_of_ne hqp] at hq
        exact List.mem_cons_of_mem _ (hall q hq hqp hnotfull)

theorem insertRecord_lists (buf : Bytes) (h : RmInv f) (hout : f.FullOut)
    (hroom : f.Roomy f.fileHdr.firstFreePageNo) (hl : f.Lists l) : ∃ l', (f.insertRecord buf).2.Lists l' := by
  obtain ⟨p, f₀, page, hc, h₀, -, hp, hlt, -, -⟩ := createPageHandle_room h hout hroom
  obtain ⟨l₀, hl₀⟩ := createPageHandle_lists h hout hroom hl hc
  rw [insertRecord_eq hc hp, if_neg (by omega)]
  exact hl₀.unlinkFull hp rfl

theorem isSet_of_entry (hlive : f.entry rid ≠ none) (hp : f.pages rid.pageNo = some page) :
    isSet page.data bitmapStart rid.slotNo.toNat = true := by
  by_contra hc
  apply hlive
  simp [entry, hp, slotEntry, hc]

/-- A page that has become free comes to the front of the list when there is one. -/
theorem Lists.release (h : f.Lists l) (hout : f.FullOut) (hne : p ≠ rmNoPage) (hp : f.pages p = some old)
    (hfull : f.Full p) (hnotin : p ∉ l) (hnext : page.pageHdr.nextFreePageNo = old.pageHdr.nextFreePageNo)
    (hroom : page.pageHdr.numRecords ≠ f.fileHdr.numRecordsPerPage) :
    (∃ l', (f.releasePageHandle p page).Lists l') ↔ f.fileHdr.firstFreePageNo ≠ rmNoPage := by
  have hlink : page.pageHdr.nextFreePageNo = rmNoPage := by
    rw [hnext, ← link_eq hp]
    exact hout p hfull
  by_cases hhead : f.fileHdr.firstFreePageNo = rmNoPage
  · -- the page has lost its way back
    refine ⟨?_, fun hc => absurd hhead hc⟩
    rintro ⟨l', hl'⟩
    rw [releasePageHandle_stay hroom (hlink.trans hhead.symm)] at hl'
    have hempty : l' = [] := by
      have hlist := hl'.list
      rw [FreeList] at hlist
      change Chain _ rmNoPage f.fileHdr.firstFreePageNo l' at hlist
      rw [hhead] at hlist
      exact hlist.end_eq
    have hstill : ¬ (f.setPage p (relinked page rmNoPage)).Full p := by
      rw [full_setPage_self]
      exact hroom
    have hmem := hl'.all p (by rw [setPage_self]; simp) hstill
    rw [hempty] at hmem
    cases hmem
  · have hfront : page.pageHdr.nextFreePageNo ≠ f.fileHdr.firstFreePageNo := by
      rw [hlink]
      exact Ne.symm hhead
    refine ⟨fun _ => hhead, fun _ =>
      ⟨p :: l, releasePageHandle_list hne hroom hfront h.list hnotin, fun q hq hnot => ?_⟩⟩
    rw [releasePageHandle_front hroom hfront] at hq hnot
    by_cases hqp : q = p
    · rw [hqp]
      exact List.mem_cons_self
    · rw [full_setPage_of_ne hqp] at hnot
      rw [setPage_of_ne hqp] at hq
      exact List.mem_cons_of_mem _ (h.all q hq hnot)

theorem deleteRecord_lists (h : RmInv f) (hout : f.FullOut)
    (hroom : f.Roomy f.fileHdr.firstFreePageNo) (hl : f.Lists l) (hlive : f.entry rid ≠ none)
    (hrun : f.deleteRecord rid = .ok f') :
    (∃ l', f'.Lists l') ↔ (f.Full rid.pageNo → f.fileHdr.firstFreePageNo ≠ rmNoPage) := by
  have hin := inFile_of_entry hlive
  obtain ⟨page, hp⟩ := Option.ne_none_iff_exists'.1 hin.page
  have hcount : (cleared page rid.slotNo.toNat).pageHdr.numRecords = page.pageHdr.numRecords - 1 := by
    rw [cleared, if_pos (isSet_of_entry hlive hp)]
  rw [deleteRecord_eq hp] at hrun
  cases hrun
  by_cases hfull : f.Full rid.pageNo
  · have hnotin : rid.pageNo ∉ l := by
      obtain ⟨l', hl', hroom'⟩ := hroom
      rw [hl.list.unique hl']
      exact fun hc => hroom' _ hc hfull
    have hold := (full_iff hp).1 hfull
    rw [if_pos (by omega), hl.release hout (h.ne_noPage hin.page) hp hfull hnotin cleared_next (by omega)]
    exact ⟨fun hc _ => hc, fun hc => hc hfull⟩
  · have hlt := (h.lt_iff hp).2 hfull
    rw [if_neg (by omega)]
    refine ⟨fun _ hc => absurd hc hfull, fun _ => ⟨l, ?_, fun q hq hnot => ?_⟩⟩
    · rw [FreeList, link_setPage_same hp cleared_next]
      exact hl.list
    · by_cases hqp : q = rid.pageNo
      · rw [hqp]
        exact hl.all _ hin.page hfull
      · rw [full_setPage_of_ne hqp] at hnot
        rw [setPage_of_ne hqp] at hq
        exact hl.all q hq hnot

end Steps

theorem keepsSpace_iff (h : RmInv f) (hroom : f.Roomy f.fileHdr.firstFreePageNo) :
    f.KeepsSpace ↔ ∃ l, f.Lists l := by
  obtain ⟨l, hl, -⟩ := hroom
  constructor
  · intro hspace
    refine ⟨l, hl, fun p hp hnot => ?_⟩
    obtain ⟨page, hp⟩ := Option.ne_none_iff_exists'.1 hp
    obtain ⟨l', hl', hmem⟩ := hspace.listed p page hp ((h.lt_iff hp).2 hnot)
    rwa [hl.unique hl']
  · rintro ⟨l, hlists⟩
    refine ⟨fun p page hp hlt => ⟨l, hlists.list, hlists.all p (by rw [hp]; simp) ((h.lt_iff hp).1 hlt)⟩, ?_⟩
    intro buf hgrows p page hp
    rw [← full_iff hp]
    have hhead : f.fileHdr.firstFreePageNo = rmNoPage := by
      by_contra hhead
      obtain ⟨p', f₀, page', hc, -, hp', -, -, -, -, hcase⟩ := createPageHandle_spec h
      obtain ⟨-, -, rfl⟩ := hcase.resolve_left fun hc => hhead hc.1
      apply hgrows
      rw [insertRecord_eq hc hp', RmFileHandle.unlinkFull]
      split
      · rfl
      · split <;> rfl
    have hempty : l = [] := by
      have hlist := hlists.list
      rw [FreeList, hhead] at hlist
      exact hlist.end_eq
    rw [hempty] at hlists
    exact hlists.full_of_nil (by rw [hp]; simp)

end RmFileHandle

namespace RmOp

open RmFileHandle

variable {f : RmFileHandle} {op : RmOp}

/-- `insert_record(buf)`, or `delete_record` of a record that is there. -/
def Plain (f : RmFileHandle) : RmOp → Prop
  | .insert buf => buf.length = f.fileHdr.recordSize
  | .delete rid => f.entry rid ≠ none
  | _ => False

def KeepsSpace (f : RmFileHandle) : RmOp → Prop
  | .delete rid => f.Full rid.pageNo → f.fileHdr.firstFreePageNo ≠ rmNoPage
  | _ => True

instance (f : RmFileHandle) : ∀ op : RmOp, Decidable (op.Plain f)
  | .insert _ => inferInstanceAs (Decidable (_ = _))
  | .delete _ => inferInstanceAs (Decidable (_ ≠ _))
  | .insertAt .. | .update .. | .reopen => inferInstanceAs (Decidable False)

instance (f : RmFileHandle) : ∀ op : RmOp, Decidable (op.KeepsSpace f)
  | .delete _ => inferInstanceAs (Decidable (_ → _))
  | .insert _ | .insertAt .. | .update .. | .reopen => inferInstanceAs (Decidable True)

theorem Plain.legal (h : op.Plain f) : op.Legal f := by
  cases op with
  | insert buf => exact h
  | delete rid => exact inFile_of_entry h
  | insertAt | update | reopen => exact h.elim

theorem Plain.keepsRoom (h : op.Plain f) : op.KeepsRoom f := by
  cases op with
  | insert buf => trivial
  | delete rid =>
      rintro ⟨page, hp, -, hset⟩
      rw [isSet_of_entry h hp] at hset
      cases hset
  | insertAt | update | reopen => exact h.elim

theorem exec_lists {l : List Int} (h : RmInv f) (hout : f.FullOut)
    (hroom : f.Roomy f.fileHdr.firstFreePageNo) (hl : f.Lists l) (hop : op.Plain f) :
    (∃ l', (op.exec f).2.Lists l') ↔ op.KeepsSpace f := by
  cases op with
  | insert buf => exact ⟨fun _ => trivial, fun _ => insertRecord_lists buf h hout hroom hl⟩
  | delete rid =>
      obtain ⟨f', hrun, -, -⟩ := deleteRecord_spec h (inFile_of_entry hop)
      rw [exec, hrun]
      exact deleteRecord_lists h hout hroom hl hop hrun
  | insertAt | update | reopen => exact hop.elim

end RmOp

/-- No space is lost exactly when no record is deleted while all pages are full. -/
theorem free_space_kept_iff (recordSize : Nat) (file : RmFile) (ops : List RmOp)
    (hcreate : RmManager.createFile recordSize = .ok file)
    (hplain : Trace.Guarded RmOp.step (fun f op => op.Plain f) (RmManager.openFile file) ops) :
    Trace.Always RmOp.step RmFileHandle.KeepsSpace (RmManager.openFile file) ops ↔
      Trace.Guarded RmOp.step (fun f op => op.KeepsSpace f) (RmManager.openFile file) ops := by
  have hinv := RmFileHandle.openFile_inv hcreate
  obtain ⟨hout, hlist⟩ := RmFileHandle.openFile_room hcreate
  have hroom : (RmManager.openFile file).Roomy (RmManager.openFile file).fileHdr.firstFreePageNo :=
    ⟨[], hlist, nofun⟩
  have hlists : (RmManager.openFile file).Lists [] := by
    refine ⟨hlist, fun p hp _ => ?_⟩
    rw [RmFileHandle.openFile_empty hcreate] at hp
    exact absurd rfl hp
  obtain ⟨f', hrun⟩ := RmOp.run_total (RmManager.openFile file) ops
  refine Trace.always_iff_guarded (I := fun f => f.RmInv ∧ f.FullOut ∧
    f.Roomy f.fileHdr.firstFreePageNo) ?_ ?_
    ⟨hinv, hout, hroom⟩ ((RmFileHandle.keepsSpace_iff hinv hroom).2 ⟨[], hlists⟩) hplain hrun
  · rintro f op _ ⟨h, hout, hroom⟩ - hop ⟨⟩
    obtain ⟨hout', hiff⟩ := RmOp.exec_room h hout hroom hop.legal
    exact ⟨(op.exec_spec h hop.legal).1, hout', hiff.2 hop.keepsRoom⟩
  · rintro f op _ ⟨h, hout, hroom⟩ hspace hop ⟨⟩
    obtain ⟨hout', hiff⟩ := RmOp.exec_room h hout hroom hop.legal
    obtain ⟨l, hl⟩ := (RmFileHandle.keepsSpace_iff h hroom).1 hspace
    rw [RmFileHandle.keepsSpace_iff (op.exec_spec h hop.legal).1 (hiff.2 hop.keepsRoom)]
    exact RmOp.exec_lists h hout hroom hl hop

theorem free_space_kept_iff_large :
    ∃ file, RmManager.createFile 512 = .ok file ∧
      Trace.Always RmOp.step RmFileHandle.KeepsSpace (RmManager.openFile file)
      (List.replicate 8 (.insert largeRecord) ++ [.delete ⟨1, 0⟩]) := by
  refine ⟨_, rfl, (free_space_kept_iff 512 _ _ rfl (by decide +kernel)).2 ?_⟩
  decide

/-- The only page is full when one of its records is deleted. -/
theorem delete_from_last_page_loses_it :
    ∃ file, RmManager.createFile 512 = .ok file ∧
      Trace.Guarded RmOp.step (fun f op => op.Plain f) (RmManager.openFile file)
        (List.replicate 7 (.insert largeRecord) ++ [.delete ⟨1, 0⟩]) ∧
      ¬ Trace.Always RmOp.step RmFileHandle.KeepsSpace (RmManager.openFile file)
        (List.replicate 7 (.insert largeRecord) ++ [.delete ⟨1, 0⟩]) := by
  refine ⟨_, rfl, by decide +kernel, fun halways => ?_⟩
  have hfull := (halways.last rfl).grows largeRecord (by decide) 1 _ rfl
  exact absurd hfull (by decide)

end Rmdb
