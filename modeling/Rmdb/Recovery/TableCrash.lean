import Rmdb.Record.FreeList
import Rmdb.Recovery.Log

namespace Rmdb

open Bitmap RmFileHandle

namespace Write

variable (w : Write) {f : RmFileHandle} {st : Store}

/-- The call by which `redo` repeats the change on the table file. -/
def redoCall : RmOp :=
  match w.op with
  | .put v => .insertAt w.loc.rid v
  | .erase _ => .delete w.loc.rid
  | .set _ after => .update w.loc.rid after

def undoCall : RmOp :=
  match w.op with
  | .put _ => .delete w.loc.rid
  | .erase v => .insertAt w.loc.rid v
  | .set before _ => .update w.loc.rid before

theorem entry_update {t : String} {loc : Loc} (ht : loc.table = t) (hst : ∀ rid, f.entry rid = st ⟨t, rid⟩)
    (v : Option Bytes) (rid : Rid) :
    Function.update f.entry loc.rid v rid = Function.update st loc v ⟨t, rid⟩ := by
  subst ht
  by_cases hr : rid = loc.rid
  · rw [hr]
    simp
  · have hloc : (⟨loc.table, rid⟩ : Loc) ≠ loc := fun hc => hr (by rw [← hc])
    rw [Function.update_of_ne hr, Function.update_of_ne hloc, hst]

variable {w} {t : String}

/-- The calls do to the records of the file what `redo` and `undo` say of the records of the tables. -/
theorem redoCall_entry (h : RmInv f) (ht : w.loc.table = t) (hst : ∀ rid, f.entry rid = st ⟨t, rid⟩)
    (hop : w.redoCall.Legal f) (rid : Rid) : (w.redoCall.exec f).2.entry rid = w.redo st ⟨t, rid⟩ := by
  obtain ⟨-, hspec⟩ := RmOp.exec_spec h hop
  obtain ⟨loc, op⟩ := w
  have hval : f.entry loc.rid = st loc := by rw [hst, ← ht]
  cases op with
  | put v | erase v => exact (congrFun hspec.2 rid).trans (entry_update ht hst _ rid)
  | set before after =>
      refine (congrFun hspec.2 rid).trans ?_
      rw [hval]
      exact entry_update ht hst _ rid

theorem undoCall_entry (h : RmInv f) (ht : w.loc.table = t) (hst : ∀ rid, f.entry rid = st ⟨t, rid⟩)
    (hop : w.undoCall.Legal f) (rid : Rid) : (w.undoCall.exec f).2.entry rid = w.undo st ⟨t, rid⟩ := by
  obtain ⟨-, hspec⟩ := RmOp.exec_spec h hop
  obtain ⟨loc, op⟩ := w
  have hval : f.entry loc.rid = st loc := by rw [hst, ← ht]
  cases op with
  | put v | erase v => exact (congrFun hspec.2 rid).trans (entry_update ht hst _ rid)
  | set before after =>
      refine (congrFun hspec.2 rid).trans ?_
      rw [hval]
      exact entry_update ht hst _ rid

end Write

/-- A table file in use, and what of it is on disk: the header and each page as they were written last.
After a crash the handle is that of the next start. -/
structure TableOnDisk where
  handle : RmFileHandle
  disk : RmFile
  crashed : Bool

inductive TableStep
  | record (op : RmOp)
  | getFree
  | writePage (p : Int)
  | crash
  | redo (w : Write)
  | undo (w : Write)
  | dropRow (rid : Rid)

namespace TableOnDisk

variable (s : TableOnDisk)

def start (file : RmFile) : TableOnDisk := ⟨RmManager.openFile file, file, false⟩

def image : RmFileHandle := RmManager.openFile s.disk

def createPageHandle : TableOnDisk :=
  if s.handle.fileHdr.firstFreePageNo = rmNoPage then
    let f := s.handle.createNewPageHandle.2
    { s with
      handle := f
      disk := ⟨f.fileHdr, Function.update s.disk.pages s.handle.fd2pageno (f.pages s.handle.fd2pageno)⟩ }
  else s

def record (op : RmOp) : TableOnDisk :=
  match op with
  | .insert _ => { s.createPageHandle with handle := (op.exec s.handle).2 }
  | .reopen => { s with handle := (op.exec s.handle).2, disk := RmManager.closeFile s.handle }
  | .insertAt .. | .update .. | .delete _ => { s with handle := (op.exec s.handle).2 }

def getFree : TableOnDisk := { s.createPageHandle with handle := s.handle.getFreeRecord.2 }

/-- The page is evicted or flushed; a checkpoint is a run of these. -/
def writePage (p : Int) : TableOnDisk :=
  { s with disk := { s.disk with pages := Function.update s.disk.pages p (s.handle.pages p) } }

def recoveryCall : TableStep → Option RmOp
  | .redo w => some w.redoCall
  | .undo w => some w.undoCall
  | .dropRow rid => some (.delete rid)
  | _ => none

def step (s : TableOnDisk) (a : TableStep) : Option TableOnDisk :=
  match s.crashed, a with
  | false, .record op => some (s.record op)
  | false, .getFree => some s.getFree
  | false, .writePage p => some (s.writePage p)
  | false, .crash => some { s with handle := s.image, crashed := true }
  | true, a => (recoveryCall a).map fun op => { s with handle := (op.exec s.handle).2 }
  | false, _ => none

/-- The callers pass buffers of `record_size` bytes, and rids of allocated pages. -/
def Legal (s : TableOnDisk) : TableStep → Prop
  | .record op => op.Legal s.handle
  | .redo w => w.redoCall.Legal s.handle
  | .undo w => w.undoCall.Legal s.handle
  | .dropRow rid => (RmOp.delete rid).Legal s.handle
  | _ => True

instance (s : TableOnDisk) : ∀ a : TableStep, Decidable (s.Legal a)
  | .record op => inferInstanceAs (Decidable (op.Legal s.handle))
  | .redo w => inferInstanceAs (Decidable (w.redoCall.Legal s.handle))
  | .undo w => inferInstanceAs (Decidable (w.undoCall.Legal s.handle))
  | .dropRow rid => inferInstanceAs (Decidable ((RmOp.delete rid).Legal s.handle))
  | .getFree | .writePage _ | .crash => inferInstanceAs (Decidable True)

def restarted : RmFileHandle := if s.crashed then s.handle else s.image

/-- The page may take the place of its version on disk: if that is on the list that the disk has, then the
page has a free slot, and what is behind it is a list with room. -/
def MayWrite (p : Int) : Prop :=
  ∀ l page, s.image.FreeList l → p ∈ l → s.handle.pages p = some page →
    page.pageHdr.numRecords ≠ s.handle.fileHdr.numRecordsPerPage ∧
      ∃ l', Chain s.image.link rmNoPage page.pageHdr.nextFreePageNo l' ∧ p ∉ l' ∧ ∀ q ∈ l', ¬ s.image.Full q

def KeepsRoom (s : TableOnDisk) : TableStep → Prop
  | .record .reopen => s.handle.Roomy s.handle.fileHdr.firstFreePageNo
  | .writePage p => s.MayWrite p
  | .redo w => w.redoCall.KeepsRoom s.handle
  | .undo w => w.undoCall.KeepsRoom s.handle
  | .dropRow rid => (RmOp.delete rid).KeepsRoom s.handle
  | _ => True

def SameLayout (hdr hdr' : RmFileHdr) : Prop := hdr' = { hdr with firstFreePageNo := hdr'.firstFreePageNo }

section Layout

variable {f : RmFileHandle} {op : RmOp} {p : Int} {page : RmPage} {hdr hdr' hdr'' : RmFileHdr}

theorem SameLayout.trans (h : SameLayout hdr hdr') (h' : SameLayout hdr' hdr'') : SameLayout hdr hdr'' := by
  rw [SameLayout, h', h]

theorem SameLayout.symm (h : SameLayout hdr hdr') : SameLayout hdr' hdr := by rw [SameLayout, h]

theorem sameLayout_unlinkFull : SameLayout f.fileHdr (f.unlinkFull p page).fileHdr := by
  rw [unlinkFull]
  split <;> rfl

theorem sameLayout_releasePageHandle : SameLayout f.fileHdr (f.releasePageHandle p page).fileHdr := by
  rw [releasePageHandle]
  split
  · rfl
  · split <;> rfl

theorem sameLayout_exec (hop : op.Legal f) (hins : ∀ buf, op ≠ .insert buf) :
    SameLayout f.fileHdr (op.exec f).2.fileHdr := by
  cases op with
  | insert buf => exact absurd rfl (hins buf)
  | insertAt rid buf =>
      obtain ⟨page, hp⟩ := Option.ne_none_iff_exists'.1 hop.1.page
      rw [RmOp.exec, insertRecordAt_eq hp]
      exact sameLayout_unlinkFull
  | update rid buf =>
      obtain ⟨page, hp⟩ := Option.ne_none_iff_exists'.1 hop.1.page
      rw [RmOp.exec, RmFileHandle.updateRecord, fetchPageHandle_eq hp]
      rfl
  | delete rid =>
      have hin : f.InFile rid := hop
      obtain ⟨page, hp⟩ := Option.ne_none_iff_exists'.1 hin.page
      rw [RmOp.exec, deleteRecord_eq hp]
      change SameLayout _ (RmFileHandle.fileHdr (if _ then _ else _))
      split
      · exact sameLayout_releasePageHandle
      · rfl
  | reopen => rfl

theorem sameLayout_insert (buf : Bytes) (h : RmInv f) :
    SameLayout f.createPageHandle.2.fileHdr (f.insertRecord buf).2.fileHdr := by
  obtain ⟨p, f₀, page, hc, -, hp, -⟩ := createPageHandle_spec h
  rw [insertRecord_eq hc hp, hc]
  split
  · rfl
  · exact sameLayout_unlinkFull

end Layout

structure Inv (s : TableOnDisk) : Prop where
  handle : RmInv s.handle
  out : s.handle.FullOut
  image : s.crashed = false → RmInv s.image ∧ s.image.FullOut ∧ SameLayout s.handle.fileHdr s.disk.fileHdr

section Steps

variable {s s' : TableOnDisk} {a : TableStep} {op : RmOp} {p : Int} {page : RmPage} {l : List Int}

theorem createPageHandle_handle : s.createPageHandle.handle = s.handle.createPageHandle.2 := by
  rw [createPageHandle, RmFileHandle.createPageHandle]
  split <;> rfl

theorem createPageHandle_crashed : s.createPageHandle.crashed = s.crashed := by
  rw [createPageHandle]
  split <;> rfl

/-- The disk gets the new page and its header as if the page had been made from an empty list. -/
theorem createPageHandle_image (h : RmInv s.handle) (hlay : SameLayout s.handle.fileHdr s.disk.fileHdr)
    (hnone : s.handle.fileHdr.firstFreePageNo = rmNoPage) :
    s.createPageHandle.image = (s.image.setFirstFree rmNoPage).createNewPageHandle.2 := by
  have hcounter := h.counter
  have hnum : s.disk.fileHdr.numPages = s.handle.fileHdr.numPages := by rw [hlay]
  rw [createPageHandle, if_pos hnone, image, image, RmManager.openFile, RmManager.openFile]
  simp only [RmFileHandle.createNewPageHandle, setFirstFree, hnone, hnum, hcounter, Function.update_self]
  rw [hlay]

theorem Inv.createPageHandle (h : Inv s) (hrun : s.crashed = false) : Inv s.createPageHandle := by
  obtain ⟨himage, hout, hlay⟩ := h.image hrun
  by_cases hnone : s.handle.fileHdr.firstFreePageNo = rmNoPage
  · have heq := createPageHandle_image h.handle hlay hnone
    have hfirst : RmInv (s.image.setFirstFree rmNoPage) := himage.setFirstFree (.inl rfl)
    have hhandle : s.createPageHandle.handle = s.handle.createNewPageHandle.2 := by
      rw [TableOnDisk.createPageHandle, if_pos hnone]
    refine ⟨?_, ?_, fun _ => ⟨?_, ?_, ?_⟩⟩
    · rw [hhandle]
      exact h.handle.createNewPageHandle
    · rw [hhandle]
      exact h.out.createNewPageHandle h.handle
    · rw [heq]
      exact hfirst.createNewPageHandle
    · rw [heq]
      exact FullOut.createNewPageHandle hfirst hout
    · rw [TableOnDisk.createPageHandle, if_pos hnone]
      rfl
  · rw [TableOnDisk.createPageHandle, if_neg hnone]
    exact h

/-- The new page is the whole list that the disk has. -/
theorem createPageHandle_roomy (h : Inv s) (hrun : s.crashed = false)
    (hroom : s.image.Roomy s.image.fileHdr.firstFreePageNo) :
    s.createPageHandle.image.Roomy s.createPageHandle.image.fileHdr.firstFreePageNo := by
  obtain ⟨himage, hout, hlay⟩ := h.image hrun
  by_cases hnone : s.handle.fileHdr.firstFreePageNo = rmNoPage
  · have hfirst : RmInv (s.image.setFirstFree rmNoPage) := himage.setFirstFree (.inl rfl)
    rw [createPageHandle_image h.handle hlay hnone]
    obtain ⟨p, f₀, page, hc, -, -, -, -, hroom, hhead⟩ := createPageHandle_room hfirst hout (Roomy.nil _)
    have hempty : (s.image.setFirstFree rmNoPage).fileHdr.firstFreePageNo = rmNoPage := rfl
    rw [RmFileHandle.createPageHandle, if_pos hempty] at hc
    rw [hc]
    change f₀.Roomy f₀.fileHdr.firstFreePageNo
    rw [hhead]
    exact hroom
  · rw [createPageHandle, if_neg hnone]
    exact hroom

theorem writePage_image (hp : s.handle.pages p = some page) :
    (s.writePage p).image = s.image.setPage p page := by
  rw [image, writePage, hp]
  rfl

theorem Inv.allocated (h : Inv s) (hrun : s.crashed = false) (p : Int) :
    s.handle.pages p ≠ none ↔ s.image.pages p ≠ none := by
  obtain ⟨himage, -, hlay⟩ := h.image hrun
  rw [h.handle.alloc, himage.alloc]
  have hnum : s.image.fileHdr.numPages = s.handle.fileHdr.numPages := by
    change s.disk.fileHdr.numPages = _
    rw [hlay]
  rw [hnum]

theorem writePage_of_none (h : Inv s) (hrun : s.crashed = false) (hp : s.handle.pages p = none) :
    s.writePage p = s := by
  have hdisk : s.disk.pages p = none := by
    by_contra hc
    exact (h.allocated hrun p).2 hc hp
  have hsame : Function.update s.disk.pages p (s.handle.pages p) = s.disk.pages := by
    rw [hp, ← hdisk, Function.update_eq_self]
  rw [writePage, hsame]

theorem Inv.writePage (h : Inv s) (hrun : s.crashed = false) (p : Int) : Inv (s.writePage p) := by
  cases hp : s.handle.pages p with
  | none =>
      rw [writePage_of_none h hrun hp]
      exact h
  | some page =>
      obtain ⟨himage, hout, hlay⟩ := h.image hrun
      have halloc := fun q => (h.allocated hrun q).1
      have hcap : s.image.fileHdr.numRecordsPerPage = s.handle.fileHdr.numRecordsPerPage := by
        change s.disk.fileHdr.numRecordsPerPage = _
        rw [hlay]
      refine ⟨h.handle, h.out, fun _ => ⟨?_, ?_, hlay⟩⟩
      · rw [writePage_image hp]
        refine himage.setPage (halloc p (by rw [hp]; simp)) ((h.handle.next hp).imp_right (halloc _)) ?_
        rw [hcap]
        exact h.handle.count hp
      · rw [writePage_image hp]
        intro q hq
        rw [link_setPage]
        by_cases hqp : q = p
        · subst hqp
          rw [Function.update_self, ← link_eq hp]
          refine h.out q ((full_iff hp).2 ?_)
          rw [← hcap]
          exact full_setPage_self.1 hq
        · rw [Function.update_of_ne hqp]
          exact hout q ((full_setPage_of_ne hqp).1 hq)

/-- A page of a list may be replaced if the links lead on from it to a list that does not come back. -/
theorem roomy_setPage_iff {f : RmFileHandle} (h : RmInv f) (hp : f.pages p ≠ none) (hl : f.FreeList l)
    (hroom : ∀ q ∈ l, ¬ f.Full q) :
    (f.setPage p page).Roomy f.fileHdr.firstFreePageNo ↔
    (p ∈ l → page.pageHdr.numRecords ≠ f.fileHdr.numRecordsPerPage ∧
      ∃ l', Chain f.link rmNoPage page.pageHdr.nextFreePageNo l' ∧ p ∉ l' ∧ ∀ q ∈ l', ¬ f.Full q) := by
  have hother : ∀ q, q ≠ p → (f.setPage p page).link q = f.link q := fun q hq => by
    rw [link_setPage, Function.update_of_ne hq]
  have hself : (f.setPage p page).link p = page.pageHdr.nextFreePageNo := by
    rw [link_setPage, Function.update_self]
  constructor
  · rintro ⟨l₁, hl₁, hroom₁⟩ hmem
    obtain ⟨before, behind, rfl⟩ := List.append_of_mem hmem
    have hnot : ∀ q ∈ before, q ≠ p := by
      rintro q hq rfl
      exact List.disjoint_of_nodup_append hl.nodup hq List.mem_cons_self
    obtain ⟨l₂, rfl, hl₂⟩ := hl.after (fun q hq => hother q (hnot q hq)) hl₁
    cases hl₂ with
    | nil => exact absurd rfl (h.ne_noPage hp)
    | @cons _ l₃ hne hl₃ =>
        have hpnot : p ∉ l₃ := (Chain.cons hne hl₃).notMem_of_cons
        rw [hself] at hl₃
        refine ⟨fun hfull => hroom₁ p (by simp) (full_setPage_self.2 hfull), l₃, ?_, hpnot, fun q hq hc => ?_⟩
        · refine hl₃.frame fun q hq => (hother q ?_).symm
          rintro rfl
          exact hpnot hq
        · refine hroom₁ q (by simp [hq]) ((full_setPage_of_ne ?_).2 hc)
          rintro rfl
          exact hpnot hq
  · intro hmay
    by_cases hmem : p ∈ l
    · obtain ⟨hnotfull, l', hl', hpnot, hroom'⟩ := hmay hmem
      obtain ⟨before, behind, rfl⟩ := List.append_of_mem hmem
      have hnot : ∀ q ∈ before, q ≠ p := by
        rintro q hq rfl
        exact List.disjoint_of_nodup_append hl.nodup hq List.mem_cons_self
      have hnot' : ∀ q ∈ l', q ≠ p := by
        rintro q hq rfl
        exact hpnot hq
      refine ⟨before ++ p :: l', ?_, ?_⟩
      · refine hl.splice (fun q hq => hother q (hnot q hq)) (.cons (h.ne_noPage hp) ?_)
        rw [hself]
        exact hl'.frame fun q hq => hother q (hnot' q hq)
      · intro q hq
        rcases List.mem_append.1 hq with hq | hq
        · rw [full_setPage_of_ne (hnot q hq)]
          exact hroom q (List.mem_append_left _ hq)
        · rcases List.mem_cons.1 hq with rfl | hq
          · rw [full_setPage_self]
            exact hnotfull
          · rw [full_setPage_of_ne (hnot' q hq)]
            exact hroom' q hq
    · have hnot : ∀ q ∈ l, q ≠ p := by
        rintro q hq rfl
        exact hmem hq
      exact Roomy.mono hl hroom (fun q hq => hother q (hnot q hq)) fun q hq hc =>
        (full_setPage_of_ne (hnot q hq)).1 hc

theorem Inv.record (h : Inv s) (hrun : s.crashed = false) (hop : op.Legal s.handle) : Inv (s.record op) := by
  obtain ⟨himage, hout, hlay⟩ := h.image hrun
  have hinv := (op.exec_spec h.handle hop).1
  have hfull := op.exec_fullOut h.handle h.out hop
  cases op with
  | insert buf =>
      have hc := h.createPageHandle hrun
      obtain ⟨himage', hout', hlay'⟩ := hc.image (createPageHandle_crashed.trans hrun)
      refine ⟨hinv, hfull, fun _ => ⟨himage', hout', ?_⟩⟩
      rw [createPageHandle_handle] at hlay'
      exact (sameLayout_insert buf h.handle).symm.trans hlay'
  | insertAt | update | delete =>
      exact ⟨hinv, hfull, fun _ => ⟨himage, hout, (sameLayout_exec hop (by simp)).symm.trans hlay⟩⟩
  | reopen => exact ⟨hinv, hfull, fun _ => ⟨reopen_spec h.handle, h.out, rfl⟩⟩

/-- A call of the running system leaves the list on disk alone, or it makes a new one. -/
theorem record_hasRoom (h : Inv s) (hrun : s.crashed = false) (hop : op.Legal s.handle)
    (hroom : s.image.Roomy s.image.fileHdr.firstFreePageNo) :
    (s.record op).image.Roomy (s.record op).image.fileHdr.firstFreePageNo ↔ s.KeepsRoom (.record op) := by
  cases op with
  | insert buf => exact ⟨fun _ => trivial, fun _ => createPageHandle_roomy h hrun hroom⟩
  | insertAt | update | delete => exact ⟨fun _ => trivial, fun _ => hroom⟩
  | reopen => rfl

theorem record_crashed : (s.record op).crashed = s.crashed := by
  cases op with
  | insert => exact createPageHandle_crashed
  | insertAt | update | delete | reopen => rfl

theorem Inv.getFree (h : Inv s) (hrun : s.crashed = false) :
    Inv s.getFree := by
  have hsame : s.handle.getFreeRecord.2 = s.createPageHandle.handle := by
    obtain ⟨p, f₀, page, hc, -, hp, -⟩ := createPageHandle_spec h.handle
    rw [createPageHandle_handle, hc]
    simp only [getFreeRecord, hc, fetchPageHandle_eq hp]
    split <;> rfl
  rw [TableOnDisk.getFree, hsame]
  exact h.createPageHandle hrun

theorem step_cases (hs : step s a = some s') :
    (s.crashed = false ∧ ((∃ op, a = .record op ∧ s' = s.record op) ∨
      (a = .getFree ∧ s' = s.getFree) ∨
      (∃ p, a = .writePage p ∧ s' = s.writePage p) ∨
        (a = .crash ∧ s' = { s with handle := s.image, crashed := true }))) ∨
    (s.crashed = true ∧ ∃ op, recoveryCall a = some op ∧ s' = { s with handle := (op.exec s.handle).2 }) := by
  cases hc : s.crashed with
  | false =>
      refine .inl ⟨rfl, ?_⟩
      cases a with
      | record op =>
          simp only [step, hc] at hs
          exact .inl ⟨op, rfl, (Option.some.inj hs).symm⟩
      | getFree =>
          simp only [step, hc] at hs
          exact .inr (.inl ⟨rfl, (Option.some.inj hs).symm⟩)
      | writePage p =>
          simp only [step, hc] at hs
          exact .inr (.inr (.inl ⟨p, rfl, (Option.some.inj hs).symm⟩))
      | crash =>
          simp only [step, hc] at hs
          exact .inr (.inr (.inr ⟨rfl, (Option.some.inj hs).symm⟩))
      | redo | undo | dropRow =>
          simp only [step, hc] at hs
          cases hs
  | true =>
      simp only [step, hc] at hs
      obtain ⟨op, hop, rfl⟩ := Option.map_eq_some_iff.1 hs
      exact .inr ⟨rfl, op, hop, rfl⟩

theorem recoveryCall_guards (hop : recoveryCall a = some op) :
    (s.Legal a ↔ op.Legal s.handle) ∧ (s.KeepsRoom a ↔ op.KeepsRoom s.handle) := by
  cases a with
  | redo | undo | dropRow =>
      cases hop
      exact ⟨Iff.rfl, Iff.rfl⟩
  | record | getFree | writePage | crash => cases hop

theorem Inv.step (h : Inv s) (hlegal : s.Legal a) (hs : step s a = some s') : Inv s' := by
  obtain ⟨hrun, ⟨op, rfl, rfl⟩ | ⟨rfl, rfl⟩ | ⟨p, rfl, rfl⟩ | ⟨rfl, rfl⟩⟩ | ⟨hc, op, hop, rfl⟩ :=
    step_cases hs
  · exact h.record hrun hlegal
  · exact h.getFree hrun
  · exact h.writePage hrun p
  · obtain ⟨himage, hout, -⟩ := h.image hrun
    exact ⟨himage, hout, by simp⟩
  · have hlegal := (recoveryCall_guards hop).1.1 hlegal
    refine ⟨(op.exec_spec h.handle hlegal).1, op.exec_fullOut h.handle h.out hlegal, fun hrun => ?_⟩
    rw [hc] at hrun
    cases hrun

theorem Inv.hasRoom_iff (h : Inv s) :
    s.restarted.HasRoom ↔ s.restarted.Roomy s.restarted.fileHdr.firstFreePageNo := by
  rw [restarted]
  split
  · exact RmFileHandle.hasRoom_iff h.handle h.out
  · rename_i hc
    obtain ⟨himage, hout, -⟩ := h.image (Bool.eq_false_iff.2 hc)
    exact RmFileHandle.hasRoom_iff himage hout

theorem restarted_running (hrun : s.crashed = false) : s.restarted = s.image := by rw [restarted, hrun]; rfl

theorem restarted_crashed (hc : s.crashed = true) : s.restarted = s.handle := by rw [restarted, hc]; rfl

theorem Inv.step_hasRoom (h : Inv s) (hlegal : s.Legal a) (hs : TableOnDisk.step s a = some s')
    (hroom : s.restarted.HasRoom) :
    s'.restarted.HasRoom ↔ s.KeepsRoom a := by
  rw [(h.step hlegal hs).hasRoom_iff]
  rw [h.hasRoom_iff] at hroom
  obtain ⟨hrun, hcase⟩ | ⟨hc, op, hop, rfl⟩ := step_cases hs
  · rw [restarted_running hrun] at hroom
    obtain ⟨op, rfl, rfl⟩ | ⟨rfl, rfl⟩ | ⟨p, rfl, rfl⟩ | ⟨rfl, rfl⟩ := hcase
    · rw [restarted_running (record_crashed.trans hrun)]
      exact record_hasRoom h hrun hlegal hroom
    · rw [restarted_running (s := s.getFree) (createPageHandle_crashed.trans hrun)]
      exact ⟨fun _ => trivial, fun _ => createPageHandle_roomy h hrun hroom⟩
    · rw [restarted_running (s := s.writePage p) hrun]
      obtain ⟨himage, -, hlay⟩ := h.image hrun
      obtain ⟨l, hl, hlroom⟩ := hroom
      cases hp : s.handle.pages p with
      | none =>
          rw [writePage_of_none h hrun hp]
          refine ⟨fun _ l page _ _ hpage => ?_, fun _ => ⟨l, hl, hlroom⟩⟩
          rw [hp] at hpage
          cases hpage
      | some page =>
          have hcap : s.image.fileHdr.numRecordsPerPage = s.handle.fileHdr.numRecordsPerPage := by
            change s.disk.fileHdr.numRecordsPerPage = _
            rw [hlay]
          rw [writePage_image hp]
          refine (roomy_setPage_iff himage ((h.allocated hrun p).1 (by rw [hp]; simp)) hl hlroom).trans ?_
          rw [hcap]
          constructor
          · intro hmay l' page' hl' hmem hpage
            rw [hp] at hpage
            cases hpage
            rw [hl'.unique hl] at hmem
            exact hmay hmem
          · exact fun hmay hmem => hmay l page hl hmem hp
    · exact ⟨fun _ => trivial, fun _ => hroom⟩
  · rw [restarted_crashed hc] at hroom
    obtain ⟨hleg, hkeeps⟩ := recoveryCall_guards (s := s) hop
    rw [restarted_crashed (s := ⟨(op.exec s.handle).2, s.disk, s.crashed⟩) hc, hkeeps]
    exact (op.exec_room h.handle h.out hroom (hleg.1 hlegal)).2

theorem start_inv {recordSize : Nat} {file : RmFile} (h : RmManager.createFile recordSize = .ok file) :
    Inv (start file) ∧ (start file).restarted.HasRoom := by
  have hinv := openFile_inv h
  obtain ⟨hout, hlist⟩ := openFile_room h
  exact ⟨⟨hinv, hout, fun _ => ⟨hinv, hout, rfl⟩⟩, (RmFileHandle.hasRoom_iff hinv hout).2 ⟨[], hlist, nofun⟩⟩

end Steps

/-- The list has room at every moment the system can crash, and all the way through the recovery, exactly when
no step breaks it. -/
theorem crash_hasRoom_iff (recordSize : Nat) (file : RmFile) (steps : List TableStep) (s : TableOnDisk)
    (hcreate : RmManager.createFile recordSize = .ok file) (hrun : Trace.run step (start file) steps = some s)
    (hlegal : Trace.Guarded step Legal (start file) steps) :
    Trace.Always step (fun s => s.restarted.HasRoom) (start file) steps ↔
      Trace.Guarded step KeepsRoom (start file) steps := by
  obtain ⟨hinv, hroom⟩ := start_inv hcreate
  refine Trace.always_iff_guarded ?_ ?_ hinv hroom hlegal hrun
  · exact fun s a s' h _ hlegal hs => h.step hlegal hs
  · exact fun s a s' h hroom hlegal hs => h.step_hasRoom hlegal hs hroom

def insertRow (slotNo : Int) : List TableStep := [.getFree, .record (.insertAt ⟨1, slotNo⟩ largeRecord)]

def rowWrite (slotNo : Int) : Write := ⟨⟨"t", ⟨1, slotNo⟩⟩, .put largeRecord⟩

/-- The checkpoint comes when the page has room, and the row behind it is redone. -/
theorem crash_hasRoom_iff_early : ∃ file s, RmManager.createFile 512 = .ok file ∧
    Trace.run step (start file)
      (insertRow 0 ++ [.writePage 1] ++ insertRow 1 ++ [.crash, .redo (rowWrite 1)]) = some s ∧
    Trace.Always step (fun s => s.restarted.HasRoom) (start file)
      (insertRow 0 ++ [.writePage 1] ++ insertRow 1 ++ [.crash, .redo (rowWrite 1)]) := by
  refine ⟨_, _, rfl, rfl, (crash_hasRoom_iff 512 _ _ _ rfl rfl ?_).2 ?_⟩
  · refine (Trace.guarded_cons rfl).2 ⟨trivial, ?_⟩
    refine (Trace.guarded_cons rfl).2 ⟨by decide +kernel, ?_⟩
    refine (Trace.guarded_cons rfl).2 ⟨trivial, ?_⟩
    refine (Trace.guarded_cons rfl).2 ⟨trivial, ?_⟩
    refine (Trace.guarded_cons rfl).2 ⟨by decide +kernel, ?_⟩
    refine (Trace.guarded_cons rfl).2 ⟨trivial, ?_⟩
    exact (Trace.guarded_cons rfl).2 ⟨by decide +kernel, trivial⟩
  · refine (Trace.guarded_cons rfl).2 ⟨trivial, ?_⟩
    refine (Trace.guarded_cons rfl).2 ⟨trivial, ?_⟩
    refine (Trace.guarded_cons rfl).2 ⟨fun l page _ _ hpage => ?_, ?_⟩
    · cases hpage
      exact ⟨by decide +kernel, [], .nil, nofun, nofun⟩
    refine (Trace.guarded_cons rfl).2 ⟨trivial, ?_⟩
    refine (Trace.guarded_cons rfl).2 ⟨trivial, ?_⟩
    refine (Trace.guarded_cons rfl).2 ⟨trivial, ?_⟩
    exact (Trace.guarded_cons rfl).2 ⟨fun hlast => absurd hlast (by decide +kernel), trivial⟩

/-- Seven rows fill page 1, the checkpoint writes it, and the header on disk still names it. -/
def fullAtCheckpoint : List TableStep :=
  insertRow 0 ++ insertRow 1 ++ insertRow 2 ++ insertRow 3 ++ insertRow 4 ++ insertRow 5 ++ insertRow 6 ++
    [.writePage 1, .crash]

theorem fullAtCheckpoint_throws : ¬∀ (recordSize : Nat) (file : RmFile) (steps : List TableStep)
    (s : TableOnDisk),
    RmManager.createFile recordSize = .ok file → Trace.run step (start file) steps = some s →
    Trace.Guarded step Legal (start file) steps → s.crashed = true → s.restarted.HasRoom := by
  intro h
  obtain ⟨rid, hrid⟩ := (h 512 _ fullAtCheckpoint _ rfl rfl (by decide +kernel) rfl).insert largeRecord
  have hthrow : ∀ rid, Except.ok rid ≠ (Except.error RmError.noFreeSlot : Rm Rid) := nofun
  exact hthrow rid (hrid.symm.trans (by decide))

end TableOnDisk

end Rmdb
